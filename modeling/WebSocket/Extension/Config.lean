/-
WebSocket/Extension/Config.lean

Extensions as they are named in headers: `name; key; key=value`.

The values of parameters are quoted where they are no tokens, and quotes are
taken off when an entry is read.  The name may be quoted as well.  A parameter
without a key is ignored, and an absent value is not the same as an empty one.
-/
import WebSocket.Text.Quoted

namespace WebSocket.Extension

/-- A parameter of an extension. -/
structure Param where
  name : String
  value : Option String := none
  deriving DecidableEq, Repr, Inhabited

/-- A parameter in its written form. -/
def Param.render (p : Param) : List Char :=
  match p.value with
  | some v => p.name.toList ++ '=' :: Text.Quoted.quoteIfNeeded v.toList
  | none => p.name.toList

/-- The name of an extension and its parameters, as they are offered or agreed
upon. -/
structure Config where
  name : String
  params : List Param := []
  deriving DecidableEq, Repr, Inhabited

namespace Config

/-- A configuration in its written form. -/
def render (c : Config) : List Char :=
  c.name.toList ++ c.params.flatMap fun p => [';', ' '] ++ p.render

/-- Reads `key` or `key=value`; `none` if there is no key. -/
def parseParam? (part : List Char) : Option Param :=
  let key := Text.trim (part.takeWhile (· ≠ '='))
  if key.isEmpty then none
  else
    let value := match part.dropWhile (· ≠ '=') with
      | [] => none
      | _ :: v => some (String.ofList (Text.Quoted.unquote v))
    some { name := String.ofList key, value }

/-- Reads an entry of an extension header; `none` if it has no name. -/
def parse? (entry : List Char) : Option Config :=
  if (Text.trimStart entry).head? = some ';' then none
  else match Text.Quoted.split ';' entry with
    | [] => none
    | first :: parts =>
      let name := Text.Quoted.unquote first
      if name.isEmpty then none
      else some { name := String.ofList name, params := parts.filterMap parseParam? }

end Config

end WebSocket.Extension
