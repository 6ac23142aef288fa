/-!
# Log filters

A log filter is a list of directives between commas. A directive names a part of the program, a span
in brackets, a level behind an equals sign, or several of these in this order. Only whether a filter
is well formed matters here.
-/

namespace FogNet.LogFilter

/-- The names of the levels. -/
def levelNames : List String := ["trace", "debug", "info", "warn", "error", "off"]

/-- Whether a text is a level: a name in letters of any case, or a digit up to five. -/
def isLevel (text : List Char) : Bool :=
  levelNames.contains (String.ofList (text.map Char.toLower)) ||
    match text with
    | [c] => '0' ≤ c && c ≤ '5'
    | _ => false

/-- Whether nothing follows, or an equals sign and a level, which may be missing. -/
def isLevelPart : List Char → Bool
  | [] => true
  | c :: level => c == '=' && (level.isEmpty || isLevel level)

/-- Whether a span follows its opening bracket: a name, fields in braces, and the closing one. -/
def isSpan (text : List Char) : Bool :=
  match text.dropWhile fun c => c != ']' && c != '\x7b' with
  | ']' :: rest => isLevelPart rest
  | '\x7b' :: rest =>
    match rest.dropWhile (· != '\x7d') with
    | _ :: ']' :: after => rest.head? != some '\x7d' && isLevelPart after
    | _ => false
  | _ => false

/-- Whether the name of a part may start with a character; those beyond the basic ones count as
letters. -/
def isNameStart (c : Char) : Bool :=
  c.isAlphanum || c == '_' || c == ':' || c == '-' || 128 ≤ c.toNat

/-- Whether a text is a directive. -/
def isDirective : List Char → Bool
  | [] => false
  | c :: rest =>
    if c = '[' then isSpan rest
    else
      isNameStart c &&
        match rest.dropWhile fun c => c != '=' && c != '[' with
        | '[' :: after => isSpan after
        | after => isLevelPart after

/-- A text without blanks around it. -/
def trimmed (text : List Char) : List Char :=
  let front := text.dropWhile Char.isWhitespace
  (front.reverse.dropWhile Char.isWhitespace).reverse

/-- Whether a filter is well formed; empty directives are passed over. -/
def isWellFormed (filter : String) : Bool :=
  (filter.toList.splitOn ',').all fun d => d.isEmpty || isDirective (trimmed d)

end FogNet.LogFilter
