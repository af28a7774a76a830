/-
WebSocket/Text/Quoted.lean

Header values that are lists: elements between delimiters, where a delimiter
inside a double-quoted string does not count and a backslash inside such a
string takes the next character as it is.

Design.  `split` cuts off one element at a time with `cut`, which starts with
fresh quote marks at each element; blank elements are skipped.  `quoteIfNeeded`
writes a value that is no token as a quoted string, and `unquote` reads either
form back: `unescape_escape` is the heart of that.
-/
import WebSocket.Http.Token
import WebSocket.Text.Blank

namespace WebSocket.Text.Quoted

/-! ### Splitting at delimiters -/

/-- Where a character stands with respect to quoted strings. -/
inductive Place where
  /-- Outside of quotes. -/
  | outside
  /-- Inside a quoted string. -/
  | inside
  /-- Inside a quoted string, behind a backslash that takes this character. -/
  | escaped
  deriving DecidableEq, Repr

/-- The place behind a character. -/
def Place.next : Place → Char → Place
  | .outside, c => if c = '"' then .inside else .outside
  | .inside, c => if c = '"' then .outside else if c = '\\' then .escaped else .inside
  | .escaped, _ => .inside

/-- The text in front of the first delimiter that stands outside quotes, and
the text behind that delimiter.  Without a delimiter the first part is all of
the text.  A double quote opens a string and is never a delimiter. -/
def cut (delim : Char) : Place → List Char → List Char × List Char
  | _, [] => ([], [])
  | p, c :: s =>
    if p = .outside ∧ c = delim ∧ c ≠ '"' then ([], s)
    else
      let r := cut delim (p.next c) s
      (c :: r.1, r.2)

theorem length_cut_snd_le (delim : Char) (p : Place) (s : List Char) :
    (cut delim p s).2.length ≤ s.length := by
  fun_induction cut delim p s with
  | case1 => simp
  | case2 => simp
  | case3 p c s _ _ ih => exact Nat.le_succ_of_le ih

theorem length_cut_snd_lt (delim : Char) (p : Place) (c : Char) (s : List Char) :
    (cut delim p (c :: s)).2.length < (c :: s).length := by
  rw [cut]
  split
  · simp
  · exact Nat.lt_succ_of_le (length_cut_snd_le ..)

/-- The elements of a list between delimiters, trimmed; empty ones are left
out. -/
def split (delim : Char) : List Char → List (List Char)
  | [] => []
  | c :: s =>
    let r := cut delim .outside (c :: s)
    let element := trim r.1
    let others := split delim r.2
    if element.isEmpty then others else element :: others
termination_by s => s.length
decreasing_by exact length_cut_snd_lt delim .outside c s

/-! ### Quoted strings -/

/-- Whether a character needs a backslash inside a quoted string. -/
def isSpecial (c : Char) : Bool :=
  c == '"' || c == '\\'

/-- A text with a backslash in front of each quote and backslash. -/
def escape (s : List Char) : List Char :=
  s.flatMap fun c => if isSpecial c then ['\\', c] else [c]

/-- Takes the character behind each backslash as it is; a backslash at the end
is dropped. -/
def unescape : List Char → List Char
  | [] => []
  | ['\\'] => []
  | '\\' :: c :: s => c :: unescape s
  | c :: s => c :: unescape s

theorem unescape_escape (s : List Char) : unescape (escape s) = s := by
  induction s with
  | nil => rfl
  | cons c s ih =>
    by_cases h : isSpecial c
    · simpa [escape, h, unescape] using ih
    · have hc : c ≠ '\\' := by rintro rfl; exact h rfl
      have : escape (c :: s) = c :: escape s := by simp [escape, h]
      rw [this, unescape, ih]
      · exact fun h => absurd h hc
      · exact fun _ _ h => absurd h hc

/-- A token as it is, and any other text as a quoted string. -/
def quoteIfNeeded (s : List Char) : List Char :=
  if Http.isToken s then s else '"' :: escape s ++ ['"']

/-- The value that a trimmed element stands for: what a quoted string holds,
and anything else as it is. -/
def unquote (s : List Char) : List Char :=
  match trim s with
  | '"' :: inner =>
    if inner.getLast? == some '"' then unescape inner.dropLast else '"' :: inner
  | other => other

end WebSocket.Text.Quoted
