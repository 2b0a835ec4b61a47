import Gat.Model.Text
import Gat.ToMathlib.QueryString

/-! # Remote URL templates

A remote may be configured with references to environment variables, which are expanded when it is opened. A value that lands in a
query is form-encoded; everything else is inserted as it is. What is already expanded is never scanned again.
-/

namespace Gat

def isAsciiAlphabetic (byte : UInt8) : Bool := 0x41 ≤ byte && byte ≤ 0x5A || 0x61 ≤ byte && byte ≤ 0x7A

def isAsciiAlphanumeric (byte : UInt8) : Bool := isAsciiAlphabetic byte || 0x30 ≤ byte && byte ≤ 0x39

def isEnvironmentName : Str → Bool
  | [] => false
  | first :: rest => (isAsciiAlphabetic first || first = 0x5F) && rest.all fun byte => isAsciiAlphanumeric byte || byte = 0x5F

/-- A validated name of a variable. -/
structure EnvironmentName where
  text : Str
  valid : isEnvironmentName text = true
deriving DecidableEq

def EnvironmentName.parse (value : Str) : Option EnvironmentName :=
  if valid : isEnvironmentName value = true then some ⟨value, valid⟩ else none

inductive TemplateToken where
  | literal (text : Str)
  | escapedDollar
  | reference (name : EnvironmentName)
deriving DecidableEq

/-- Errors carry offsets only. -/
inductive TemplateSyntaxError where
  | unterminatedReference (offset : ℕ)
  | invalidVariableName (offset : ℕ)
deriving DecidableEq

namespace Byte

def dollar : UInt8 := 0x24

def openBrace : UInt8 := 0x7B

def closeBrace : UInt8 := 0x7D

end Byte

/-- The tokens of the text from an offset on. -/
def tokenizeFrom (offset : ℕ) (rest : Str) : Except TemplateSyntaxError (List TemplateToken) :=
  match found : rest.cut Byte.dollar with
  | (text, none) => .ok [.literal text]
  | (text, some behind) =>
    let offset := offset + text.length
    match behind with
    | [] => .ok [.literal text, .literal [Byte.dollar], .literal []]
    | next :: after =>
      if next = Byte.dollar then do
        let tokens ← tokenizeFrom (offset + 2) after
        .ok (.literal text :: .escapedDollar :: tokens)
      else if next = Byte.openBrace then
        match closed : after.cut Byte.closeBrace with
        | (_, none) => .error (.unterminatedReference offset)
        | (name, some after) =>
          match EnvironmentName.parse name with
          | none => .error (.invalidVariableName offset)
          | some name => do
            let tokens ← tokenizeFrom (offset + name.text.length + 3) after
            .ok (.literal text :: .reference name :: tokens)
      else do
        let tokens ← tokenizeFrom (offset + 1) (next :: after)
        .ok (.literal text :: .literal [Byte.dollar] :: tokens)
termination_by rest.length
decreasing_by
  · have shorter := List.length_lt_of_cut_eq found
    rw [List.length_cons] at shorter
    omega
  · have shorter := List.length_lt_of_cut_eq found
    have still := List.length_lt_of_cut_eq closed
    rw [List.length_cons] at shorter
    omega
  · exact List.length_lt_of_cut_eq found

def tokenizeTemplate (input : Str) : Except TemplateSyntaxError (List TemplateToken) := tokenizeFrom 0 input

end Gat
