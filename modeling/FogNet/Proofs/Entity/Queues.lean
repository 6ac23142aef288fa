import FogNet.Proofs.Membership.Reaction
import Mathlib.Algebra.GroupWithZero.Nat

/-!
# The two queues of a link

A link between two different entities keeps what each of them sends apart, in the order in which it
was sent. One operation puts byte counts at the end of the queues and takes some from their fronts
(`Link.queue_after`). Over many of them, what was queued at first and what was accepted since is
what was taken out and what is still queued, in the same order and for each direction on its own;
what is asked for by anything else than the two changes nothing (`Link.keeps_queues`).
-/

namespace FogNet.Link

/-! ## Operations -/

/-- What can be asked of a link that may change it. -/
inductive Operation where
  /-- To queue a byte count. -/
  | enqueue (sender : EntityId) (bytes : Nat)
  /-- To give out the oldest byte count of a sender. -/
  | dequeue (sender : EntityId)
  /-- To give out the oldest byte count of each endpoint. -/
  | releaseOldest
  /-- To measure the latency over a distance. -/
  | recomputeLatency (distance speed : Float)

/-- What an operation makes of a link. -/
def after (l : Link) : Operation → Link
  | .enqueue sender bytes => (l.enqueue sender bytes).2
  | .dequeue sender => (l.dequeue sender).2
  | .releaseOldest => l.releaseOldest.2
  | .recomputeLatency distance speed => l.recomputeLatency distance speed

/-- The endpoint that sends in a direction. -/
def sender (l : Link) : Direction → EntityId
  | .forward => l.first
  | .reverse => l.second

/-- The byte counts that an operation puts into a direction: those accepted from its sender. -/
def accepts (d : Direction) (l : Link) : Operation → List Nat
  | .enqueue sender bytes =>
    if sender = l.sender d ∧ (l.enqueue sender bytes).1 = true then [bytes] else []
  | _ => []

/-- The byte counts that an operation takes out of a direction: the one that its sender is given, or
the oldest one if it is released. -/
def yields (d : Direction) (l : Link) : Operation → List Nat
  | .dequeue sender => if sender = l.sender d then (l.dequeue sender).1.toList else []
  | .releaseOldest => (l.queue d).head?.toList
  | _ => []

/-- What is read off operations that follow one upon the other. -/
def collected (read : Link → Operation → List Nat) (l : Link) : List Operation → List Nat
  | [] => []
  | c :: rest => read l c ++ collected read (l.after c) rest

/-! ## Directions -/

variable {l : Link} {d e : Direction} {s : EntityId}

theorem sender_of_directionFrom? (h : l.directionFrom? s = some d) : s = l.sender d := by
  unfold directionFrom? at h
  split_ifs at h with hfirst hsecond
  · obtain rfl := Option.some.inj h
    exact hfirst
  · obtain rfl := Option.some.inj h
    exact hsecond

theorem directionFrom?_sender (hl : l.first ≠ l.second) (d : Direction) :
    l.directionFrom? (l.sender d) = some d := by
  cases d with
  | forward => exact if_pos rfl
  | reverse => exact (if_neg hl.symm).trans (if_pos rfl)

theorem directionFrom?_of_ne (hfirst : s ≠ l.first) (hsecond : s ≠ l.second) :
    l.directionFrom? s = none :=
  (if_neg hfirst).trans (if_neg hsecond)

theorem sender_ne (hl : l.first ≠ l.second) (h : e ≠ d) : l.sender d ≠ l.sender e := by
  intro hsame
  have hd := directionFrom?_sender hl d
  rw [hsame, directionFrom?_sender hl e] at hd
  exact h (Option.some.inj hd)

/-! ## Queues -/

theorem queue_setQueue (l : Link) (q : List Nat) (d : Direction) :
    (l.setQueue q d).queue d = q := by
  cases d <;> rfl

theorem queue_setQueue_of_ne (h : e ≠ d) (q : List Nat) :
    (l.setQueue q d).queue e = l.queue e := by
  cases d <;> cases e <;> first | rfl | exact absurd rfl h

theorem setQueue_queue (l : Link) (d : Direction) : l.setQueue (l.queue d) d = l := by
  cases d <;> rfl

/-- What others send is queued elsewhere. -/
theorem queue_enqueue_of_ne (hs : s ≠ l.sender d) (bytes : Nat) :
    (l.enqueue s bytes).2.queue d = l.queue d := by
  unfold enqueue
  split
  · rename_i e he
    refine queue_setQueue_of_ne (fun h => hs ?_) _
    rw [h]
    exact sender_of_directionFrom? he
  · rfl

/-- What others have sent is given out elsewhere. -/
theorem queue_dequeue_of_ne (hs : s ≠ l.sender d) : (l.dequeue s).2.queue d = l.queue d := by
  unfold dequeue
  split
  · rename_i e he
    split
    · rfl
    · refine queue_setQueue_of_ne (fun h => hs ?_) _
      rw [h]
      exact sender_of_directionFrom? he
  · rfl

theorem enqueue_sender (hl : l.first ≠ l.second) (d : Direction) (bytes : Nat) :
    l.enqueue (l.sender d) bytes = (true, l.setQueue (l.queue d ++ [bytes]) d) := by
  unfold enqueue
  rw [directionFrom?_sender hl]

/-- A sender is given the oldest byte count of its queue, which loses it. -/
theorem dequeue_sender (hl : l.first ≠ l.second) (d : Direction) :
    l.dequeue (l.sender d) = ((l.queue d).head?, l.setQueue (l.queue d).tail d) := by
  unfold dequeue
  rw [directionFrom?_sender hl]
  simp only
  split
  · rename_i hq
    rw [show (l.queue d).tail = l.queue d by rw [hq]; rfl, setQueue_queue, hq]
    rfl
  · rename_i bytes rest hq
    rw [hq]
    rfl

theorem queuedBytes_sender (hl : l.first ≠ l.second) (d : Direction) :
    l.queuedBytes (l.sender d) = (l.queue d).sum := by
  unfold queuedBytes
  rw [directionFrom?_sender hl]
  exact List.sum_eq_foldl_nat.symm

/-- Releasing gives out the oldest byte count of each direction. -/
theorem releaseOldest_eq (hl : l.first ≠ l.second) :
    l.releaseOldest =
      ((l.queue .forward).head?.isSome.toNat + (l.queue .reverse).head?.isSome.toNat,
        (l.setQueue (l.queue .forward).tail .forward).setQueue (l.queue .reverse).tail
          .reverse) := by
  have hfirst := dequeue_sender hl .forward
  have hsecond := dequeue_sender (l := l.setQueue (l.queue .forward).tail .forward) hl .reverse
  unfold releaseOldest
  rw [show l.dequeue l.first = _ from hfirst]
  simp only
  rw [show (l.setQueue (l.queue .forward).tail .forward).dequeue
    (l.setQueue (l.queue .forward).tail .forward).second = _ from hsecond]
  rfl

/-! ## Conservation -/

/-- Nothing at the ends of a link changes. -/
theorem sameChannel_after (l : Link) (c : Operation) : l.SameChannel (l.after c) := by
  cases c with
  | enqueue s bytes => exact l.sameChannel_enqueue s bytes
  | dequeue s => exact l.sameChannel_dequeue s
  | releaseOldest => exact (sameChannel_dequeue _ _).trans (sameChannel_dequeue _ _)
  | recomputeLatency distance speed => rfl

theorem toList_head?_append_tail (q : List Nat) : q.head?.toList ++ q.tail = q := by
  cases q <;> rfl

/-- One operation puts byte counts at the end of a queue and takes some from its front. -/
theorem queue_after (hl : l.first ≠ l.second) (d : Direction) (c : Operation) :
    l.queue d ++ l.accepts d c = l.yields d c ++ (l.after c).queue d := by
  cases c with
  | enqueue s bytes =>
    show l.queue d ++ (if s = l.sender d ∧ (l.enqueue s bytes).1 = true then [bytes] else []) =
      (l.enqueue s bytes).2.queue d
    by_cases hs : s = l.sender d
    · rw [hs, enqueue_sender hl, if_pos ⟨rfl, rfl⟩, queue_setQueue]
    · rw [if_neg fun h => hs h.1, List.append_nil, queue_enqueue_of_ne hs]
  | dequeue s =>
    show l.queue d ++ [] =
      (if s = l.sender d then (l.dequeue s).1.toList else []) ++ (l.dequeue s).2.queue d
    rw [List.append_nil]
    by_cases hs : s = l.sender d
    · rw [if_pos hs, hs, dequeue_sender hl, queue_setQueue, toList_head?_append_tail]
    · rw [if_neg hs, List.nil_append, queue_dequeue_of_ne hs]
  | releaseOldest =>
    have hrest : l.releaseOldest.2.queue d = (l.queue d).tail := by
      rw [releaseOldest_eq hl]
      cases d <;> rfl
    show l.queue d ++ [] = (l.queue d).head?.toList ++ l.releaseOldest.2.queue d
    rw [List.append_nil, hrest, toList_head?_append_tail]
  | recomputeLatency distance speed =>
    show l.queue d ++ [] = (l.recomputeLatency distance speed).queue d
    rw [List.append_nil]
    cases d <;> rfl

theorem sameChannel_foldl (l : Link) (operations : List Operation) :
    l.SameChannel (operations.foldl after l) := by
  induction operations generalizing l with
  | nil => rfl
  | cons c rest ih => exact (l.sameChannel_after c).trans (ih (l.after c))

/-- What was queued at first and what is accepted is what is taken out and what is still queued, in
this order. -/
theorem queue_foldl (hl : l.first ≠ l.second) (d : Direction) (operations : List Operation) :
    l.queue d ++ collected (accepts d) l operations =
      collected (yields d) l operations ++ (operations.foldl after l).queue d := by
  induction operations generalizing l with
  | nil => exact List.append_nil _
  | cons c rest ih =>
    have hstep := l.sameChannel_after c
    have hrest := ih (l := l.after c) (by rw [hstep.first, hstep.second]; exact hl)
    show l.queue d ++ (l.accepts d c ++ collected (accepts d) (l.after c) rest) =
      l.yields d c ++ collected (yields d) (l.after c) rest ++
        (rest.foldl after (l.after c)).queue d
    rw [← List.append_assoc, queue_after hl, List.append_assoc, hrest, List.append_assoc]

/-! ## Two independent queues -/

/-- A link that has kept two queues apart, after some operations on the link it was. -/
structure Serves (l : Link) (operations : List Operation) (m : Link) : Prop where
  /-- In each direction, what was queued at first and what was accepted since is what was taken out
  and what is still queued, in this order. -/
  conserves : ∀ d, l.queue d ++ collected (accepts d) l operations =
    collected (yields d) l operations ++ m.queue d
  /-- An endpoint is never refused, and is given the oldest byte count it has sent. -/
  answers : ∀ d, (∀ bytes, (m.enqueue (l.sender d) bytes).1 = true) ∧
    (m.dequeue (l.sender d)).1 = (m.queue d).head?
  /-- What an endpoint asks for leaves the other direction as it is. -/
  apart : ∀ d e, e ≠ d → (∀ bytes, (m.enqueue (l.sender d) bytes).2.queue e = m.queue e) ∧
    (m.dequeue (l.sender d)).2.queue e = m.queue e
  /-- What anything else asks for is refused, and changes nothing. -/
  refuses : ∀ s, s ≠ l.first → s ≠ l.second → (∀ bytes, m.enqueue s bytes = (false, m)) ∧
    m.dequeue s = (none, m) ∧ m.queuedBytes s = 0
  /-- Releasing answers with the number of directions that had something queued. -/
  releases : m.releaseOldest.1 = [Direction.forward, .reverse].countP fun d => m.queue d ≠ []
  /-- The bytes queued by an endpoint are the sum of its queue. -/
  sums : ∀ d, m.queuedBytes (l.sender d) = (m.queue d).sum

/-- After any operations, a link between two entities keeps two independent queues. -/
theorem keeps_queues (l : Link) (hl : l.first ≠ l.second) (operations : List Operation) :
    l.Serves operations (operations.foldl after l) := by
  have hsame := l.sameChannel_foldl operations
  have hconserves := fun d => queue_foldl hl d operations
  generalize operations.foldl after l = m at hsame hconserves
  have hm : m.first ≠ m.second := by
    rw [hsame.first, hsame.second]
    exact hl
  have hsender : l.sender = m.sender := by
    funext d
    cases d with
    | forward => exact hsame.first.symm
    | reverse => exact hsame.second.symm
  refine
    { conserves := hconserves
      answers := fun d => ?answers
      apart := fun d e he => ?apart
      refuses := fun s hfirst hsecond => ?refuses
      releases := ?releases
      sums := fun d => ?sums }
  case answers =>
    rw [hsender]
    exact ⟨fun bytes => congrArg Prod.fst (enqueue_sender hm d bytes),
      congrArg Prod.fst (dequeue_sender hm d)⟩
  case apart =>
    rw [hsender]
    exact ⟨queue_enqueue_of_ne (sender_ne hm he), queue_dequeue_of_ne (sender_ne hm he)⟩
  case refuses =>
    have hnone : m.directionFrom? s = none :=
      directionFrom?_of_ne (hsame.first ▸ hfirst) (hsame.second ▸ hsecond)
    unfold enqueue dequeue queuedBytes
    rw [hnone]
    exact ⟨fun _ => rfl, rfl, rfl⟩
  case releases =>
    rw [releaseOldest_eq hm, List.countP_cons, List.countP_cons, List.countP_nil]
    cases m.queue .forward <;> cases m.queue .reverse <;> rfl
  case sums =>
    rw [hsender]
    exact queuedBytes_sender hm d

/-- A link between two entities. -/
def busy : Link := .create 10 1 2 2 1000

/-- Operations of both of them, and of a third entity. -/
def rushHour : List Operation :=
  [.enqueue 1 100, .enqueue 2 300, .enqueue 9 500, .enqueue 1 200, .releaseOldest, .dequeue 9,
    .recomputeLatency 300 100, .enqueue 1 400, .releaseOldest]

/-- The second release finds one direction empty and takes from the other; the third entity is not
noticed. -/
theorem keeps_queues_busy :
    busy.first ≠ busy.second ∧ busy.Serves rushHour (rushHour.foldl after busy) ∧
      collected (accepts .forward) busy rushHour = [100, 200, 400] ∧
      collected (yields .forward) busy rushHour = [100, 200] ∧
      (rushHour.foldl after busy).forwardQueue = [400] ∧
      collected (accepts .reverse) busy rushHour = [300] ∧
      collected (yields .reverse) busy rushHour = [300] := by
  have hends : busy.first ≠ busy.second := by decide
  exact ⟨hends, keeps_queues busy hends rushHour, by decide, by decide, by decide, by decide,
    by decide⟩

end FogNet.Link
