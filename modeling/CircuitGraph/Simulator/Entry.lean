import CircuitGraph.Simulator.Amplitude
import CircuitGraph.Value.Number
import CircuitGraph.Value.Order

/-
  Amplitudes that values stand for.

  An amplitude is given by its parts, or by a text of the form
  `x`, `yj`, `x+yj` or `x-yj`, perhaps between parentheses.
-/

---- Texts ----

namespace CircuitGraph

namespace Amplitude

def afterMark? : List Char → Option (List Char)
  | c :: cs => if c = 'j' || c = 'J' then some cs else none
  | [] => none

def scanUnit? (cs : List Char) : Option (Float × List Char) :=
  match cs with
  | '-' :: rest => (afterMark? rest).map (fun rest => (-1.0, rest))
  | '+' :: rest => (afterMark? rest).map (fun rest => (1.0, rest))
  | _ => (afterMark? cs).map (fun rest => (1.0, rest))

def scanImaginary? (cs : List Char) : Option (Float × List Char) :=
  match Numeral.scanSigned? cs with
  | some (y, rest) => (afterMark? rest).map (fun rest => (y, rest))
  | none => scanUnit? cs

def startsSigned : List Char → Bool
  | c :: _ => c = '+' || c = '-'
  | [] => false

def scan? (cs : List Char) : Option (Amplitude × List Char) :=
  match Numeral.scanSigned? cs with
  | none => (scanUnit? cs).map (fun (y, rest) => (⟨0.0, y⟩, rest))
  | some (x, rest) =>
    if startsSigned rest then (scanImaginary? rest).map (fun (y, rest) => (⟨x, y⟩, rest))
    else
      match afterMark? rest with
      | some rest => some (⟨0.0, x⟩, rest)
      | none => some (⟨x, 0.0⟩, rest)

def scanWhole? (cs : List Char) : Option Amplitude :=
  match cs.dropWhile isBlank with
  | '(' :: inner =>
    match scan? (inner.dropWhile isBlank) with
    | some (a, rest) =>
      match rest.dropWhile isBlank with
      | ')' :: rest => if rest.all isBlank then some a else none
      | _ => none
    | none => none
  | cs =>
    match scan? cs with
    | some (a, rest) => if rest.all isBlank then some a else none
    | none => none

def upToForeign : List Char → List Char
  | [] => []
  | c :: cs => if 128 ≤ c.toNat && !isBlank c then [c] else c :: upToForeign cs

/-
  A text without the underscores between its digits.  They are
  looked for in front of the null character and of a foreign
  one only, and where there are some, the former is refused.
-/
def plainText? (s : String) : Option (List Char) :=
  let cs := upToForeign (s.toList.map Numeral.plainDigit)
  if !cs.contains (Char.ofNat 0) then Numeral.dropUnderscores false cs
  else if (cs.takeWhile (fun c => c ≠ Char.ofNat 0)).contains '_' then none
  else some cs

def ofText (s : String) : Except Fault Amplitude :=
  match plainText? s with
  | none => .error (.argument (.notComplex s))
  | some cs =>
    match scanWhole? cs with
    | some a => .ok a
    | none => .error (.argument .malformedComplex)

---- Parts ----

def ofValues : List Value → Except Fault Amplitude
  | [] => .ok (ofReal 0.0)
  | [.text s] => ofText s
  | [v] => do return ofReal (← v.number)
  | [v, w] =>
    if v.isNumeric && w.isNumeric then do return ⟨← v.number, ← w.number⟩
    else .error .wrongType
  | _ => .error .wrongType

end Amplitude

end CircuitGraph
