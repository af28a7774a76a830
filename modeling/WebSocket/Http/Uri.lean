/-
WebSocket/Http/Uri.lean

Reading URIs.

Three forms are accepted: a scheme, an authority and a path with a query; an
authority alone; and a path with a query alone, or a single asterisk.  What
follows a number sign is neither kept nor checked.

Design.  The scheme is found first.  The authority goes up to the first slash,
question mark or number sign and is checked character by character
(`AuthorityScan`); what is left to check at its end is in `AuthorityScan.finish`.
The rest is split into path and query.
-/

namespace WebSocket.Http

/-- Why a text is no URI. -/
inductive UriError where
  | tooLong
  | empty
  | invalidCharacter
  | schemeTooLong
  | invalidAuthority
  | invalidFormat
  deriving DecidableEq, Repr

/-- The wording of an error. -/
def UriError.message : UriError → String
  | tooLong => "uri too long"
  | empty => "empty string"
  | invalidCharacter => "invalid uri character"
  | schemeTooLong => "scheme too long"
  | invalidAuthority => "invalid authority"
  | invalidFormat => "invalid format"

/-- A URI in parts. -/
structure Uri where
  scheme : Option (List Char) := none
  /-- Empty if there is none. -/
  authority : List Char := []
  /-- As it is written, so possibly empty. -/
  path : List Char := []
  query : Option (List Char) := none
  deriving DecidableEq, Repr

namespace Uri

/-! ### The scheme -/

/-- The longest scheme. -/
def maxSchemeLength : Nat := 64

/-- Whether a character may stand in a scheme. -/
def isSchemeChar (c : Char) : Bool :=
  c.isAlphanum || "+.~-".toList.contains c

/-- Removes a prefix that is the same but for case. -/
def dropPrefix? (front s : List Char) : Option (List Char) :=
  if (s.take front.length).map Char.toLower = front then some (s.drop front.length) else none

/-- Splits off a scheme.  The schemes `http` and `https` are put in small letters,
others are kept as they are. -/
def splitScheme (s : List Char) : Except UriError (Option (List Char) × List Char) :=
  match dropPrefix? "http://".toList s with
  | some rest => .ok (some "http".toList, rest)
  | none =>
    match dropPrefix? "https://".toList s with
    | some rest => .ok (some "https".toList, rest)
    | none =>
      let scheme := s.takeWhile isSchemeChar
      match s.dropWhile isSchemeChar with
      | ':' :: '/' :: '/' :: rest =>
        if s.length ≤ 3 then .ok (none, s)
        else if maxSchemeLength < scheme.length then .error .schemeTooLong
        else .ok (some scheme, rest)
      | _ => .ok (none, s)

/-! ### The authority -/

/-- What has been seen of an authority. -/
structure AuthorityScan where
  /-- The number of colons since the last at-sign or closing bracket. -/
  colons : Nat := 0
  /-- Whether there was an opening bracket. -/
  opened : Bool := false
  /-- Whether there was a closing bracket. -/
  closed : Bool := false
  /-- Whether there was a percent sign since the last at-sign or closing bracket. -/
  percent : Bool := false
  /-- Whether an at-sign was the last character. -/
  atSign : Bool := false
  deriving DecidableEq, Repr

/-- The most colons in a part of an authority. -/
def maxColons : Nat := 8

/-- Whether a character ends the authority. -/
def endsAuthority (c : Char) : Bool :=
  c == '/' || c == '?' || c == '#'

/-- Whether a character without a meaning of its own may stand in an authority. -/
def isAuthorityChar (c : Char) : Bool :=
  c.isAlphanum || "!$&'()*+,-.;=_~".toList.contains c

/-- Goes on over one character. -/
def AuthorityScan.next (s : AuthorityScan) (c : Char) : Except UriError AuthorityScan :=
  match c with
  | ':' =>
    if maxColons ≤ s.colons then .error .invalidAuthority
    else .ok { s with colons := s.colons + 1, atSign := false }
  | '[' =>
    if s.percent || s.opened then .error .invalidAuthority
    else .ok { s with opened := true, atSign := false }
  | ']' =>
    if !s.opened || s.closed then .error .invalidAuthority
    else .ok { s with closed := true, colons := 0, percent := false, atSign := false }
  | '@' => .ok { s with colons := 0, percent := false, atSign := true }
  | '%' => .ok { s with percent := true, atSign := false }
  | c =>
    if isAuthorityChar c then .ok { s with atSign := false } else .error .invalidCharacter

/-- Checks what can only be known at the end: brackets come in pairs, there is at
most one colon in the last part and no percent sign, and something follows the
last at-sign. -/
def AuthorityScan.finish (s : AuthorityScan) : Except UriError Unit :=
  if s.opened != s.closed || 1 < s.colons || s.atSign || s.percent then
    .error .invalidAuthority
  else .ok ()

/-- Splits off an authority, which may be empty. -/
def splitAuthority (s : List Char) : Except UriError (List Char × List Char) := do
  if s.isEmpty then throw .empty
  let authority := s.takeWhile fun c => !endsAuthority c
  let scan ← authority.foldlM AuthorityScan.next {}
  scan.finish
  return (authority, s.dropWhile fun c => !endsAuthority c)

/-- The host that an authority names: behind the last at-sign, and up to the
closing bracket or the colon. -/
def hostOf (authority : List Char) : List Char :=
  let hostPort := (authority.reverse.takeWhile (· ≠ '@')).reverse
  if hostPort.head? = some '[' then hostPort.takeWhile (· ≠ ']') ++ [']']
  else hostPort.takeWhile (· ≠ ':')

/-! ### Path and query -/

/-- Whether a character may stand in a path.  The octets that may be part of a
character beyond ASCII are not looked at, and DEL is counted among them. -/
def isPathChar (c : Char) : Bool :=
  (0x21 ≤ c.toNat && c.toNat ≤ 0x7e && !("<>`".toList.contains c)) || 0x7f ≤ c.toNat

/-- Whether a character may stand in a query. -/
def isQueryChar (c : Char) : Bool :=
  (0x21 ≤ c.toNat && c.toNat ≤ 0x7e && !("\"<>".toList.contains c)) || 0x7f ≤ c.toNat

/-- Splits what follows the authority into path and query. -/
def splitPath (s : List Char) : Except UriError (List Char × Option (List Char)) :=
  let path := s.takeWhile fun c => c ≠ '?' && c ≠ '#'
  if !path.all isPathChar then .error .invalidCharacter
  else match s.dropWhile fun c => c ≠ '?' && c ≠ '#' with
    | '?' :: rest =>
      let query := rest.takeWhile (· ≠ '#')
      if query.all isQueryChar then .ok (path, some query) else .error .invalidCharacter
    | _ => .ok (path, none)

/-! ### Whole URIs -/

/-- The longest URI, in octets. -/
def maxLength : Nat := 65534

/-- Reads a URI. -/
def parse (text : String) : Except UriError Uri := do
  let s := text.toList
  if maxLength < text.utf8ByteSize then throw .tooLong
  if s.isEmpty then throw .empty
  if s = ['*'] then return { path := s }
  if s.head? = some '/' then
    let (path, query) ← splitPath s
    return { path, query }
  if s.length = 1 then
    let (authority, rest) ← splitAuthority s
    if !rest.isEmpty then throw .invalidCharacter
    return { authority }
  let (scheme, rest) ← splitScheme s
  let (authority, rest) ← splitAuthority rest
  if scheme.isNone then
    if !rest.isEmpty then throw .invalidFormat
    return { authority }
  if authority.isEmpty then throw .invalidFormat
  let (path, query) ← splitPath rest
  return { scheme, authority, path, query }

/-- Path and query as they are written, or a slash if there is neither. -/
def pathAndQuery (u : Uri) : List Char :=
  match u.path, u.query with
  | [], none => ['/']
  | path, none => path
  | path, some query => path ++ '?' :: query

/-- A URI in its written form, without what followed a number sign. -/
def render (u : Uri) : List Char :=
  let scheme := match u.scheme with
    | some s => s ++ "://".toList
    | none => []
  let path := if u.path.isEmpty && (u.scheme.isSome || u.query.isSome) then ['/'] else u.path
  let query := match u.query with
    | some q => '?' :: q
    | none => []
  scheme ++ u.authority ++ path ++ query

end Uri

end WebSocket.Http
