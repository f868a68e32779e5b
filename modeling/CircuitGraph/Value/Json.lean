import CircuitGraph.Decimal.Reading
import CircuitGraph.Fault

/-
  JSON texts of values.

  Written texts are ASCII, with fields in ascending order of
  their names.
-/

---- Writing ----

namespace CircuitGraph

namespace Json

def longEscape (n : Nat) : List Char :=
  if n < 65536 then Quoted.unitEscape n
  else Quoted.unitEscape (Surrogate.highHalf n) ++ Quoted.unitEscape (Surrogate.lowHalf n)

def escape (n : Nat) : List Char :=
  let c := Char.ofNat n
  if c = Quoted.doubleQuote || c = Quoted.backslash then [Quoted.backslash, c]
  else if n = 10 then [Quoted.backslash, 'n']
  else if n = 13 then [Quoted.backslash, 'r']
  else if n = 9 then [Quoted.backslash, 't']
  else if n = 8 then [Quoted.backslash, 'b']
  else if n = 12 then [Quoted.backslash, 'f']
  else if 32 ≤ n && n < 127 then [c]
  else longEscape n

def string (s : String) : String :=
  let escaped := (Surrogate.codes s).flatMap escape
  String.ofList (Quoted.doubleQuote :: escaped ++ [Quoted.doubleQuote])

end Json

namespace Value

mutual

def render : Value → String
  | null => "null"
  | truth b => if b then "true" else "false"
  | whole i => signed i
  | decimal x => Layout.json.write x
  | text s => Json.string s
  | list items => bracketed (renderAll items)
  | record fields =>
    let sorted := (renderFields fields).mergeSort (fun a b => a.1 ≤ b.1)
    "\x7b" ++ String.intercalate ", " (sorted.map Prod.snd) ++ "\x7d"

def renderAll : List Value → List String
  | [] => []
  | v :: vs => render v :: renderAll vs

def renderFields : List (String × Value) → List (String × String)
  | [] => []
  | (name, v) :: fields => (name, Json.string name ++ ": " ++ render v) :: renderFields fields

end

end Value

---- Reading Strings ----

namespace Json

def skipBlanks (cs : List Char) : List Char :=
  cs.dropWhile (fun c => c = ' ' || c = '\n' || c = '\r' || c = '\t')

def hexValue? (c : Char) : Option Nat :=
  let n := c.toNat
  if 48 ≤ n && n ≤ 57 then some (n - 48)
  else if 97 ≤ n && n ≤ 102 then some (n - 87)
  else if 65 ≤ n && n ≤ 70 then some (n - 55)
  else none

def readUnit? : List Char → Option (Nat × List Char)
  | a :: b :: c :: d :: rest => do
    let a ← hexValue? a
    let b ← hexValue? b
    let c ← hexValue? c
    let d ← hexValue? d
    return (((a * 16 + b) * 16 + c) * 16 + d, rest)
  | _ => none

/-
  The point of a code unit, as it is kept, and what follows
  its escape.  A high half of a pair joins a low one that is
  escaped right after it.
-/
def joinUnits (unit : Nat) (rest : List Char) : List Char × List Char :=
  let alone :=
    if Surrogate.isHigh unit || Surrogate.isLow unit then [Surrogate.standIn unit]
    else [Char.ofNat unit]
  match rest with
  | c :: 'u' :: more =>
    match readUnit? more with
    | some (low, after) =>
      if Surrogate.isHigh unit && c = Quoted.backslash && Surrogate.isLow low then
        (Surrogate.kept (Surrogate.joined unit low), after)
      else (alone, rest)
    | none => (alone, rest)
  | _ => (alone, rest)

def shortEscape? (c : Char) : Option Char :=
  if c = Quoted.doubleQuote || c = Quoted.backslash || c = '/' then some c
  else if c = 'b' then some (Char.ofNat 8)
  else if c = 'f' then some (Char.ofNat 12)
  else if c = 'n' then some (Char.ofNat 10)
  else if c = 'r' then some (Char.ofNat 13)
  else if c = 't' then some (Char.ofNat 9)
  else none

/-
  The rest of a string up to its closing quote.  The argument
  `done` holds the characters read so far, the last one first.
-/
def readString? : Nat → List Char → List Char → Option (String × List Char)
  | 0, _, _ => none
  | _ + 1, _, [] => none
  | fuel + 1, done, c :: rest =>
    if c = Quoted.doubleQuote then some (String.ofList done.reverse, rest)
    else if c = Quoted.backslash then
      match rest with
      | 'u' :: more => do
        let (unit, after) ← readUnit? more
        let (point, after) := joinUnits unit after
        readString? fuel (point.reverse ++ done) after
      | e :: more => do
        let d ← shortEscape? e
        readString? fuel (d :: done) more
      | [] => none
    else if c.toNat < 32 then none
    else readString? fuel (c :: done) rest

---- Reading Values ----

def after? (word : String) (cs : List Char) : Option (List Char) :=
  if word.toList.isPrefixOf cs then some (cs.drop word.length) else none

def digitLimit : Nat :=
  4300

def depthLimit : Nat :=
  992

/-
  A number: a minus sign, a whole part without leading zeros,
  a fraction and an exponent, each with at least one digit.
  Without fraction and exponent it is a whole number.
-/
def readNumber (cs : List Char) : Except Fault (Value × List Char) :=
  let (negative, unsigned) :=
    match cs with
    | '-' :: rest => (true, rest)
    | rest => (false, rest)
  let (whole, rest) :=
    match unsigned with
    | '0' :: more => ([0], more)
    | more => Numeral.spanDigits more
  if whole.isEmpty then .error .invalidText
  else
    let (fraction, afterFraction) :=
      match rest with
      | '.' :: more =>
        match Numeral.spanDigits more with
        | ([], _) => ([], rest)
        | found => found
      | _ => ([], rest)
    let (e, afterExponent) := Numeral.scanExponent afterFraction
    if afterExponent.length = rest.length then
      if digitLimit < whole.length then
        .error (.argument (.manyDigits digitLimit whole.length))
      else
        let n : Int := Numeral.ofDigits whole
        .ok (.whole (if negative then -n else n), rest)
    else
      let numeral : Numeral :=
        ⟨negative, Numeral.ofDigits (whole ++ fraction), e - (fraction.length : Int)⟩
      .ok (.decimal numeral.toFloat, afterExponent)

def readName? (cs : List Char) : Option (Value × List Char) :=
  (after? "null" cs).map (fun rest => (.null, rest))
    <|> (after? "true" cs).map (fun rest => (.truth true, rest))
    <|> (after? "false" cs).map (fun rest => (.truth false, rest))
    <|> (after? "NaN" cs).map (fun rest => (.decimal (0.0 / 0.0), rest))
    <|> (after? "Infinity" cs).map (fun rest => (.decimal (1.0 / 0.0), rest))
    <|> (after? "-Infinity" cs).map (fun rest => (.decimal (-(1.0 / 0.0)), rest))

def setField (fields : List (String × Value)) (name : String) (v : Value) : List (String × Value) :=
  if fields.any (fun f => f.1 == name) then
    fields.map (fun f => if f.1 == name then (name, v) else f)
  else fields ++ [(name, v)]

def readString (cs : List Char) : Except Fault (String × List Char) :=
  match readString? (cs.length + 1) [] cs with
  | some found => .ok found
  | none => .error .invalidText

mutual

/-
  A value at the start of a text and the rest of the text;
  `room` says how many levels may still be nested.
-/
def readValue : Nat → Nat → List Char → Except Fault (Value × List Char)
  | 0, _, _ => .error .invalidText
  | fuel + 1, room, cs =>
    match cs with
    | [] => .error .invalidText
    | c :: rest =>
      if c = Quoted.doubleQuote then do
        let (s, more) ← readString rest
        return (.text s, more)
      else if c = '[' then
        if room = 0 then .error .tooDeep
        else
          match skipBlanks rest with
          | ']' :: more => .ok (.list [], more)
          | more => readItems fuel (room - 1) [] more
      else if c = '\x7b' then
        if room = 0 then .error .tooDeep
        else
          match skipBlanks rest with
          | '\x7d' :: more => .ok (.record [], more)
          | more => readFields fuel (room - 1) [] more
      else
        match readName? cs with
        | some found => .ok found
        | none => readNumber cs

def readItems : Nat → Nat → List Value → List Char → Except Fault (Value × List Char)
  | 0, _, _, _ => .error .invalidText
  | fuel + 1, room, done, cs => do
    let (v, rest) ← readValue fuel room cs
    match skipBlanks rest with
    | ',' :: more => readItems fuel room (v :: done) (skipBlanks more)
    | ']' :: more => return (.list (v :: done).reverse, more)
    | _ => throw .invalidText

def readFields : Nat → Nat → List (String × Value) → List Char → Except Fault (Value × List Char)
  | 0, _, _, _ => .error .invalidText
  | fuel + 1, room, done, cs =>
    match cs with
    | c :: rest =>
      if c = Quoted.doubleQuote then do
        let (name, more) ← readString rest
        match skipBlanks more with
        | ':' :: more => do
          let (v, more) ← readValue fuel room (skipBlanks more)
          let done := setField done name v
          match skipBlanks more with
          | ',' :: more => readFields fuel room done (skipBlanks more)
          | '\x7d' :: more => return (.record done, more)
          | _ => throw .invalidText
        | _ => throw .invalidText
      else .error .invalidText
    | [] => .error .invalidText

end

end Json

namespace Value

/-
  The value that a JSON text denotes, if it is not nested
  deeper than allowed.  Every recursive call passes a
  character, so the length of the text bounds them.
-/
def readWithin (depth : Nat) (s : String) : Except Fault Value := do
  let (v, rest) ← Json.readValue (s.length + 1) depth (Json.skipBlanks s.toList)
  if (Json.skipBlanks rest).isEmpty then return v else throw .invalidText

def read (s : String) : Except Fault Value :=
  readWithin Json.depthLimit s

/- The value that a JSON text denotes, however deep it is nested. -/
def readAll (s : String) : Except Fault Value :=
  readWithin s.length s

end Value

end CircuitGraph
