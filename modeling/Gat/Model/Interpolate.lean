import Gat.Model.Template

/-! # Expanding a template

The URL parser is a parameter. Of a hierarchical URL it is known that spaces around the text and line breaks inside are dropped,
that the first `#` begins the fragment and the first `?` before it the query, that these two are percent-encoded, and that the
rest of the URL decides on its own whether it is accepted.
-/

namespace Gat

namespace Byte

def space : UInt8 := 0x20

def hash : UInt8 := 0x23

def ampersand : UInt8 := 0x26

def equals : UInt8 := 0x3D

def questionMark : UInt8 := 0x3F

end Byte

structure Url where
  scheme : Str
  authority : Str
  path : Str
  query : Option Str
  fragment : Option Str
deriving DecidableEq

/-! ## What is known of the parser -/

/-- The text without what the parser drops. -/
def readable (text : Str) : Str :=
  ((text.dropWhile (· ≤ Byte.space)).rdropWhile (· ≤ Byte.space)).filter fun byte => byte ∉ [Byte.tab, Byte.lineFeed, Byte.carriageReturn]

/-- The text in front of query and fragment. -/
def urlFront (text : Str) : Str := ((text.cut Byte.hash).1.cut Byte.questionMark).1

def urlQuery (text : Str) : Option Str := ((text.cut Byte.hash).1.cut Byte.questionMark).2

def urlFragment (text : Str) : Option Str := (text.cut Byte.hash).2

def isHierarchical (text : Str) : Prop := ascii "://" <:+: urlFront text

def isSpecialScheme (scheme : Str) : Bool := [ascii "http", ascii "https", ascii "ws", ascii "wss", ascii "ftp", ascii "file"].contains scheme

def querySet (scheme : Str) (byte : UInt8) : Bool :=
  byte ≤ Byte.space || 0x7F ≤ byte || [0x22, 0x23, 0x3C, 0x3E].contains byte || isSpecialScheme scheme && byte = 0x27

def fragmentSet (byte : UInt8) : Bool := byte ≤ Byte.space || 0x7F ≤ byte || [0x22, 0x3C, 0x3E, 0x60].contains byte

/-- A parser that follows the URL standard on hierarchical URLs. -/
structure UrlStandard (parse : Str → Option Url) (front : Str → Option (Str × Str × Str)) : Prop where
  parse_eq : ∀ text, isHierarchical (readable text) → parse text = (front (urlFront (readable text))).map fun (scheme, authority, path) =>
    ⟨scheme, authority, path, (urlQuery (readable text)).map (Percent.encode (querySet scheme)), (urlFragment (readable text)).map (Percent.encode fragmentSet)⟩

/-! ## Expansion -/

inductive InterpolateError where
  | unterminatedReference (offset : ℕ)
  | invalidVariableName (offset : ℕ)
  | missingVariable (name : EnvironmentName)
  | nonUnicodeVariable (name : EnvironmentName)
deriving DecidableEq

def InterpolateError.ofSyntax : TemplateSyntaxError → InterpolateError
  | .unterminatedReference offset => .unterminatedReference offset
  | .invalidVariableName offset => .invalidVariableName offset

/-- Whether the output so far ends in the value of a query pair. -/
def inQueryValue (parse : Str → Option Url) (out : Str) : Bool :=
  match parse out with
  | none => false
  | some url => url.fragment.isNone && url.query.any fun query => ((query.splitOn Byte.ampersand).getLast?).any fun pair => pair.contains Byte.equals

def interpolateToken (parse : Str → Option Url) (lookup : EnvironmentName → Except InterpolateError Str) (out : Str) :
    TemplateToken → Except InterpolateError Str
  | .literal text => .ok (out ++ text)
  | .escapedDollar => .ok (out ++ [Byte.dollar])
  | .reference name => do
    let value ← lookup name
    .ok (out ++ if inQueryValue parse out then Percent.formSerialize value else value)

def interpolateWith (parse : Str → Option Url) (lookup : EnvironmentName → Except InterpolateError Str) (input : Str) : Except InterpolateError Str :=
  match tokenizeTemplate input with
  | .error error => .error (.ofSyntax error)
  | .ok tokens => tokens.foldlM (interpolateToken parse lookup) []

end Gat
