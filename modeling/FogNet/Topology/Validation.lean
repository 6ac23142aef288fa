import FogNet.Membership.Consistency

/-!
# Well-formed networks

A network can run if its heads form trees whose levels grow by one downwards, parents and children
name each other, links join two different entities that exist, and the membership records agree.
-/

namespace FogNet.Registry

/-- A head's parent is one level above it and lists it. -/
def validateParent (r : Registry) (h : PuddleHead) : Except Fault Unit :=
  match h.parent with
  | none => .ok ()
  | some parent =>
    match r.puddleHead parent with
    | .error fault => .error fault
    | .ok p =>
      if p.level + 1 ≠ h.level then .error (.topology (.levelGap h.id h.level parent p.level))
      else if p.children.contains h.id then .ok ()
      else .error (.topology (.unlistedChild parent h.id))

/-- Following parents ends after at most a number of steps. -/
def validateAscent (r : Registry) (head : EntityId) : Nat → Option EntityId → Except Fault Unit
  | _, none => .ok ()
  | 0, some _ => .error (.topology (.endlessAscent head))
  | steps + 1, some up =>
    match r.puddleHead up with
    | .error fault => .error fault
    | .ok h => r.validateAscent head steps h.parent

/-- The listed children of a head have it as their parent. -/
def validateChildren (r : Registry) (h : PuddleHead) : Except Fault Unit :=
  h.children.forM fun child =>
    match r.puddleHead child with
    | .error fault => .error fault
    | .ok c =>
      if c.parent = some h.id then .ok () else .error (.topology (.strayChild h.id child))

/-- A link joins two different entities that exist. -/
def validateLink (r : Registry) (l : Link) : Except Fault Unit :=
  if l.first = l.second then .error (.link l.first l.second .selfLoop)
  else
    match r.entity l.first, r.entity l.second with
    | .error fault, _ => .error fault
    | .ok _, .error fault => .error fault
    | .ok _, .ok _ => .ok ()

/-- The consistency checks as a fault. -/
def checkRecords (r : Registry) : Except Fault Unit := r.checkAll.mapError .violation

/-- Whether the network can run, with the first reason if it cannot. -/
def validate (r : Registry) : Except Fault Unit := do
  r.puddleHeads.forM fun h => do
    r.validateParent h
    r.validateAscent h.id r.puddleHeads.length h.parent
    r.validateChildren h
  r.links.forM r.validateLink
  r.checkRecords

end FogNet.Registry
