import CircuitGraph.Description
import CircuitGraph.Proofs.Circuits
import CircuitGraph.Proofs.Decimal.Doubles

/-
  What reading a description can lead to.

  Every value is read as a graph that passes the check at all
  levels, or it is refused as malformed.

  Main declarations:
    * `Fault.refuses`: what is malformed
    * `Oversized`: numbers beyond all doubles
    * `ofDescription_valid_or_refused`
-/

---- Sorts of Faults ----

namespace CircuitGraph

open List

namespace Fault

def isArgument : Fault → Bool
  | .argument _ | .wrongType => true
  | _ => false

def isLookup : Fault → Bool
  | .unknownKey _ | .wrongType => true
  | _ => false

def isStructural : Fault → Bool
  | .structural _ => true
  | _ => false

def refusesWire (fault : Fault) : Bool :=
  fault.isArgument || fault.isLookup || fault.isStructural

def isMalformed : Fault → Bool
  | .description _ _ => true
  | .wireTypes _ cause => cause.isLookup
  | .nodeEntry _ _ cause => cause.isArgument
  | .wireEntry _ _ cause => cause.refusesWire
  | .invalidGraph cause => cause.isStructural
  | _ => false

/- Whether a value is refused as malformed, and what the message spells is part of it. -/
def refuses (v : Value) (fault : Fault) : Bool :=
  fault.isMalformed && (!fault.isLong || v.isLong)

theorem refuses_iff {v : Value} {fault : Fault} : fault.refuses v = true ↔
    fault.isMalformed = true ∧ (fault.isLong = true → v.isLong = true) := by
  cases hLong : fault.isLong <;> simp [refuses, hLong]

theorem refuses_mono {v w : Value} {fault : Fault} (hRef : fault.refuses w = true)
    (hPart : w.isLong = true → v.isLong = true) : fault.refuses v = true := by
  rw [refuses_iff] at hRef ⊢
  exact ⟨hRef.1, fun hLong => hPart (hRef.2 hLong)⟩

end Fault

namespace Value

theorem isLong_of_mem {v : Value} {vs : List Value} (hM : v ∈ vs) (hLong : v.isLong = true) :
    (list vs).isLong = true := by
  rw [isLong]
  induction vs with
  | nil => cases hM
  | cons w vs ih =>
    rw [anyLong, Bool.or_eq_true]
    rcases mem_cons.mp hM with rfl | hRest
    · exact .inl hLong
    · exact .inr (ih hRest)

theorem isLong_of_field? {v w : Value} {key : String} (hField : v.field? key = some w)
    (hLong : w.isLong = true) : v.isLong = true := by
  cases v with
  | record fields =>
    rcases Option.map_eq_some_iff.mp hField with ⟨entry, hFind, rfl⟩
    have hM := mem_of_find?_eq_some hFind
    rw [isLong]
    clear hField hFind
    induction fields with
    | nil => cases hM
    | cons field fields ih =>
      rw [anyFieldLong, Bool.or_eq_true]
      rcases mem_cons.mp hM with rfl | hRest
      · exact .inl hLong
      · exact .inr (ih hRest)
  | _ => cases hField

theorem isLong_of_getD {v : Value} {key : String} (hLong : ((v.field? key).getD .null).isLong = true) :
    v.isLong = true := by
  cases hField : v.field? key with
  | none => simp [hField, isLong] at hLong
  | some w => exact isLong_of_field? hField (by simpa [hField] using hLong)

end Value

/- An outcome that is no fault, or one of some sort. -/
def Raises {α : Type} (sort : Fault → Bool) (x : Except Fault α) : Prop :=
  ∀ ⦃fault⦄, x = .error fault → sort fault = true

namespace Raises

variable {α β : Type} {sort : Fault → Bool} {x : Except Fault α} {f : α → Except Fault β}

@[simp]
theorem of_ok (a : α) : Raises sort (.ok a) :=
  fun _ hNever => nomatch hNever

@[simp]
theorem error_iff {fault : Fault} :
    Raises sort (.error fault : Except Fault α) ↔ sort fault = true := by
  simp [Raises]

theorem bind (hFirst : Raises sort x) (hThen : ∀ a, Raises sort (f a)) : Raises sort (x >>= f) := by
  intro fault hFault
  rcases bind_eq_error_iff.mp hFault with hError | ⟨a, -, hError⟩
  · exact hFirst hError
  · exact hThen a hError

theorem mapM {xs : List α} (hEach : ∀ x ∈ xs, Raises sort (f x)) : Raises sort (xs.mapM f) := by
  intro fault hFault
  rcases exists_of_mapM_error hFault with ⟨x, hM, hError⟩
  exact hEach x hM hError

theorem forM {xs : List α} {f : α → Except Fault Unit} (hEach : ∀ x ∈ xs, Raises sort (f x)) :
    Raises sort (xs.forM f) := by
  intro fault hFault
  rcases exists_of_forM_error hFault with ⟨x, hM, hError⟩
  exact hEach x hM hError

end Raises

---- Faults of the Check ----

namespace Graph

variable {K : Type} {g : Graph K}

def Owned (g : Graph K) : Prop :=
  ∀ node ∈ g.ops, node.enclosing = none

theorem Sound.raises_checkInput (hS : g.Sound) (n i : Nat) (t : WireType) :
    Raises Fault.isStructural (g.checkInput n i t) := by
  unfold checkInput
  split
  · exact Raises.error_iff.mpr rfl
  · rename_i w hWire
    rcases hS.typed w (hS.wireInto?_iff.mp hWire).1 with ⟨carried, hOut, -⟩
    have hCarr : g.carriedType? w.src = some carried := hOut
    simp only [hCarr]
    split <;> simp [Fault.isStructural]

theorem raises_checkOutput (n i : Nat) (t : WireType) :
    Raises Fault.isStructural (g.checkOutput n i t) := by
  unfold checkOutput
  dsimp only
  split <;> simp [Fault.isStructural]

theorem Sound.raises_checkNode (hS : g.Sound) (n : Nat) :
    Raises Fault.isStructural (g.checkNode n) :=
  .bind (.forM (fun entry _ => hS.raises_checkInput n entry.2 entry.1))
    (fun _ => .forM (fun entry _ => raises_checkOutput n entry.2 entry.1))

theorem raises_topologicalOrder : Raises Fault.isStructural g.topologicalOrder := by
  unfold topologicalOrder
  dsimp only
  split <;> simp [Fault.isStructural]

/- Where no graph contains itself, the check finds structural faults only. -/
theorem Intact.fault_of_validate (hI : g.Intact) (hOwned : Everywhere Owned g) :
    Raises Fault.isStructural g.validate := by
  induction g using nested_induction with
  | step g ih =>
    have hN := hI.sound.raises_checkNode
    rw [validate_eq]
    refine .bind (hN _) (fun _ => .bind (hN _) (fun _ => .bind (.forM ?_) (fun _ => ?_)))
    · refine fun node hM => .bind (hN _) (fun _ => ?_)
      rw [hI.sound.valueOf?_nested validate _ hM, hOwned.here node hM]
      cases hIn : node.body with
      | none => exact .of_ok ()
      | some body =>
        exact ih node hM body hIn (hI.body hM hIn) (hOwned.body hM hIn)
    · exact .bind raises_topologicalOrder (fun _ => .of_ok ())

theorem Intact.everywhere_validate (hI : g.Intact) (hValid : g.validate = .ok ()) :
    Everywhere (fun h => h.validate = .ok ()) g := by
  induction g using nested_induction with
  | step g ih =>
    refine .intro hValid (fun node hN body hB => ?_)
    have hIn := hI.body hN hB
    refine ih node hN body hB hIn (hIn.validate_ok_iff.mpr ?_)
    exact (hI.validate_ok_iff.mp hValid).body hN hB

end Graph

---- Parameters That Are Too Large ----

namespace Description

/-
  Whether some node entry, at some level of a description, has
  among its parameters a whole number that is too large for a
  double: beyond the largest one by half a step at least.
-/
inductive Oversized : Value → Prop where
  | here {v entry : Value} {entries params : List Value} {i : Int}
      (nodes : v.field? "nodes" = some (.list entries)) (mem : entry ∈ entries)
      (given : entry.field? "params" = some (.list params)) (param : .whole i ∈ params)
      (large : 2 ^ 1024 - 2 ^ 970 ≤ i.natAbs) :
      Oversized v
  | nested {v entry body : Value} {entries : List Value}
      (nodes : v.field? "nodes" = some (.list entries)) (mem : entry ∈ entries)
      (field : entry.field? "body" = some body) (inner : Oversized body) :
      Oversized v

theorem field?_of_items {place key : String} {v : Value} {entries : List Value}
    (hItems : items place key v = .ok entries) : v.field? key = some (.list entries) := by
  unfold items at hItems
  split at hItems
  · rename_i hField
    cases hItems
    exact hField
  · cases hItems
  · cases hItems

theorem isLong_of_items {place key : String} {v entry : Value} {entries : List Value}
    (hItems : items place key v = .ok entries) (hM : entry ∈ entries) (hLong : entry.isLong = true) :
    v.isLong = true :=
  Value.isLong_of_field? (field?_of_items hItems) (Value.isLong_of_mem hM hLong)

theorem field?_of_entryBody? {entry body : Value} (hB : entryBody? entry = some body) :
    entry.field? "body" = some body := by
  unfold entryBody? at hB
  split at hB
  · cases hB
  · exact hB

theorem Oversized.of_entryBody? {place : String} {v entry body : Value} {entries : List Value}
    (hItems : items place "nodes" v = .ok entries) (hM : entry ∈ entries)
    (hB : entryBody? entry = some body) (hIn : Oversized body) : Oversized v := by
  exact .nested (field?_of_items hItems) hM (field?_of_entryBody? hB) hIn

theorem Oversized.of_entryParams {place : String} {v entry : Value} {entries params : List Value}
    {i : Int} (hItems : items place "nodes" v = .ok entries) (hM : entry ∈ entries)
    (hParams : entryParams entry = .ok params) (hParam : .whole i ∈ params)
    (hNone : Binary64.ofInt? i = none) : Oversized v := by
  have hGiven : entry.field? "params" = some (.list params) := by
    unfold entryParams at hParams
    split at hParams
    · cases hParams
      simp at hParam
    · rename_i given hField
      rw [hField]
      -- The elements of a text or of a record are texts, so the number is in a list.
      cases given with
      | list vs =>
        obtain rfl := Except.ok.inj hParams
        rfl
      | text s =>
        obtain rfl := Except.ok.inj hParams
        simp at hParam
      | record fields =>
        obtain rfl := Except.ok.inj hParams
        simp at hParam
      | _ => cases hParams
  exact .here (field?_of_items hItems) hM hGiven hParam (Binary64.le_natAbs_of_ofInt?_eq_none hNone)

---- Faults of Parts ----

theorem raises_wireType (place : String) (v : Value) :
    Raises (fun cause => (Fault.wireTypes place cause).refuses v) (wireType v) := by
  unfold wireType
  repeat' split
  all_goals simp [Fault.refuses, Fault.isMalformed, Fault.isLookup, Fault.isLong]

theorem raises_wireTypes (place : String) (v : Value) :
    Raises (Fault.refuses v) (wireTypes place v) := by
  unfold wireTypes
  dsimp only
  split
  · exact .of_ok _
  · rename_i cause hCause
    refine Raises.error_iff.mpr ?_
    split at hCause
    · rename_i names hNames
      rcases exists_of_mapM_error hCause with ⟨name, hM, hError⟩
      refine Fault.refuses_mono (raises_wireType place name hError) (fun hLong => ?_)
      -- the elements of a text or of a record are texts, and these are not long
      cases v with
      | list vs =>
        obtain rfl := Option.some.inj hNames
        exact Value.isLong_of_mem hM hLong
      | text s =>
        obtain rfl := Option.some.inj hNames
        rcases mem_map.mp hM with ⟨point, -, rfl⟩
        simp [Value.isLong] at hLong
      | record fields =>
        obtain rfl := Option.some.inj hNames
        rcases mem_map.mp hM with ⟨field, -, rfl⟩
        simp [Value.isLong] at hLong
      | _ => cases hNames
    · cases hCause
      rfl

theorem raises_checkKeys (place : String) (v : Value) :
    Raises (Fault.refuses v) (checkKeys place v) := by
  unfold checkKeys
  dsimp only
  repeat' split
  all_goals simp [Fault.refuses, Fault.isMalformed, Fault.isLong]

theorem raises_items (place key : String) (v : Value) :
    Raises (Fault.refuses v) (items place key v) := by
  unfold items
  split <;> simp [Fault.refuses, Fault.isMalformed, Fault.isLong]

theorem raises_entryLabel (place : String) (labels : LabelMap) (entry : Value) :
    Raises (Fault.refuses entry) (entryLabel place labels entry) := by
  have hLabel : (Fault.description place
      (.badLabel ((entry.field? "id").getD .null))).refuses entry = true :=
    Fault.refuses_iff.mpr ⟨rfl, Value.isLong_of_getD⟩
  unfold entryLabel
  split
  · dsimp only
    repeat' split
    all_goals simp [hLabel]
  · exact Raises.error_iff.mpr (Fault.refuses_iff.mpr ⟨rfl, id⟩)

theorem isLong_of_entryLabel {place : String} {labels : LabelMap} {entry : Value}
    {found : Value × Label} (hLabel : entryLabel place labels entry = .ok found)
    (hLong : found.1.isLong = true) : entry.isLong = true := by
  unfold entryLabel at hLabel
  dsimp only at hLabel
  repeat' split at hLabel
  all_goals cases hLabel
  exact Value.isLong_of_getD hLong

theorem raises_entryKind (place : String) {label entry : Value}
    (hLabel : label.isLong = true → entry.isLong = true) :
    Raises (Fault.refuses entry) (entryKind place label entry) := by
  unfold entryKind
  dsimp only
  split
  · exact .of_ok _
  · refine Raises.error_iff.mpr (Fault.refuses_iff.mpr ⟨rfl, fun hLong => ?_⟩)
    rcases Bool.or_eq_true_iff.mp hLong with hLeft | hRight
    · exact hLabel hLeft
    · exact Value.isLong_of_getD hRight

theorem raises_valueItems (v : Value) : Raises Fault.isArgument v.items := by
  unfold Value.items
  split <;> simp [Fault.isArgument]

theorem raises_entryParams (entry : Value) : Raises Fault.isArgument (entryParams entry) := by
  unfold entryParams
  split
  · exact .of_ok _
  · exact raises_valueItems _

theorem fault_of_toParam {v : Value} {fault : Fault} (hFault : v.toParam = .error fault) :
    fault.isArgument = true ∨
      (fault = .overflow ∧ ∃ i, v = .whole i ∧ Binary64.ofInt? i = none) := by
  cases v with
  | decimal x => cases hFault
  | truth b => cases hFault
  | whole i =>
    cases hDouble : Binary64.ofInt? i with
    | some x =>
      simp only [Value.toParam, Value.toFloat, hDouble] at hFault
      cases hFault
    | none =>
      simp only [Value.toParam, Value.toFloat, hDouble] at hFault
      cases hFault
      exact .inr ⟨rfl, i, rfl, hDouble⟩
  | text s =>
    cases hDouble : readFloat? s with
    | some x =>
      simp only [Value.toParam, Value.toFloat, hDouble] at hFault
      cases hFault
    | none =>
      simp only [Value.toParam, Value.toFloat, hDouble] at hFault
      cases hFault
      exact .inl rfl
  | _ =>
    cases hFault
    exact .inl rfl

theorem raises_wireParts (entry : Value) : Raises Fault.isArgument (wireParts entry) := by
  have hParts : Raises Fault.isArgument (entry.parts 4) := by
    refine .bind (raises_valueItems entry) (fun vs => ?_)
    dsimp only
    split
    · exact Raises.error_iff.mpr rfl
    · split
      · exact Raises.error_iff.mpr rfl
      · exact .of_ok vs
  unfold wireParts
  split
  · exact .of_ok _
  · exact Raises.error_iff.mpr rfl
  · rename_i fault hFault
    exact Raises.error_iff.mpr (hParts hFault)

theorem raises_resolve (labels : LabelMap) (v : Value) : Raises Fault.isLookup (labels.resolve v) := by
  refine .bind ?_ (fun l => ?_)
  · unfold Label.ofReference
    split <;> simp [Fault.isLookup]
  · split
    · exact .of_ok _
    · exact Raises.error_iff.mpr rfl

end Description

namespace Graph

variable {K : Type} {g : Graph K}

theorem raises_checkPin (pin : PinName) (side : Side) :
    Raises Fault.isArgument (g.checkPin pin side) := by
  unfold checkPin
  repeat' split
  all_goals simp [Fault.isArgument]

/- A pin that was found to exist has a type, or its position is no whole number. -/
theorem fault_of_typedPin {pin : PinName} {n : Nat} {fault : Fault}
    (hPin : g.checkPin pin pin.side = .ok n) (hFault : g.typedPin n pin = .error fault) :
    fault = .wrongType := by
  unfold checkPin at hPin
  rw [if_neg (by simp)] at hPin
  split at hPin
  · cases hPin
  split at hPin
  · cases hPin
  split at hPin
  · rename_i hWithin
    cases hPin
    unfold typedPin at hFault
    split at hFault
    · cases hFault
      rfl
    · rename_i i hPosition
      split at hFault
      · cases hFault
      · rename_i hNone
        refine absurd (List.getElem?_eq_none_iff.mp hNone) (Nat.not_le.mpr ?_)
        cases hValue : pin.position with
        | whole j =>
          rw [hValue] at hWithin hPosition
          obtain rfl := Option.some.inj hPosition
          have hRange : 0 ≤ j ∧ j < ((g.pinTypes n pin.side).length : Int) := by
            simpa [Value.within?] using hWithin
          omega
        | truth b =>
          rw [hValue] at hWithin hPosition
          obtain rfl := Option.some.inj hPosition
          simpa [Value.within?] using hWithin
        | _ =>
          rw [hValue] at hPosition
          cases hPosition
  · cases hPin
  · cases hPin

---- Faults of Entries ----

theorem ends_addNode (kind : Kind) (params : List Value) (body : Option (Graph K)) :
    Ends (addNode kind params body) g (fun _ _ => True) (fun fault _ =>
      fault.isArgument = true ∨
        (fault = .overflow ∧ ∃ i, .whole i ∈ params ∧ Binary64.ofInt? i = none)) := by
  refine (ends_addNodeWith kind (Value.toParams params) body none g).mono (fun _ _ _ => trivial) ?_
  rintro fault _ ⟨-, hFault | ⟨cause, rfl⟩⟩
  · rcases exists_of_mapM_error hFault with ⟨v, hM, hParam⟩
    rcases Description.fault_of_toParam hParam with hArgument | ⟨hLarge, i, rfl, hNone⟩
    · exact .inl hArgument
    · exact .inr ⟨hLarge, i, hM, hNone⟩
  · exact .inl rfl

theorem keeps_everywhere_addNode {Q : Graph K → Prop} {kind : Kind} {body : Option (Graph K)}
    (hN : ∀ g params, Q g →
      Q ({ g with nextId := g.nextId + 1 }.insertNode ⟨g.nextId, kind, params, body, none⟩))
    (hB : ∀ b, body = some b → Everywhere Q b)
    (params : List Value) : Keeps (Everywhere Q) (addNode kind params body) := by
  refine Ends.keeps (fun g hAll => (ends_addNodeWith kind (Value.toParams params) body none g).mono
    ?_ (fun _ _ hSame => hSame.1 ▸ hAll))
  rintro _ _ ⟨rfl, -, ps, -, -, rfl⟩
  refine .intro (hN g ps hAll.here) (fun node hM b hIn => ?_)
  rcases mem_append.mp hM with hOld | hNew
  · exact hAll.body hOld hIn
  · rw [mem_singleton.mp hNew] at hIn
    exact hB b hIn

theorem ends_connect [Scalar K] {src dst : PinName} (hSrc : src.side = .output)
    (hDst : dst.side = .input) :
    Ends (connect src dst) g (fun _ _ => True) (fun fault _ => fault.refusesWire = true) := by
  have hPin : ∀ pin side fault, g.checkPin pin side = .error fault → fault.refusesWire = true := by
    intro pin side fault hFault
    rw [Fault.refusesWire, raises_checkPin pin side hFault]
    rfl
  refine .get_bind (.ofExcept_bind (fun s hFnd => ?_) (fun fault hFault => hPin _ _ _ hFault))
  refine .ofExcept_bind (fun d hFnd' => ?_) (fun fault hFault => hPin _ _ _ hFault)
  refine .ofExcept_bind (fun srcPin _ => ?_) (fun fault hFault => ?_)
  · refine .ofExcept_bind (fun dstPin _ => ?_) (fun fault hFault => ?_)
    · refine .get_bind (.of_ite (fun _ => .throw_bind rfl) (fun _ => ?_))
      refine .of_ite (fun _ => .throw_bind rfl) (fun _ => ?_)
      refine .of_ite (fun _ => .throw_bind rfl) (fun _ => ?_)
      exact .set_bind (.of_pure trivial)
    · rw [fault_of_typedPin (hDst ▸ hFnd') hFault]
      rfl
  · rw [fault_of_typedPin (hSrc ▸ hFnd) hFault]
    rfl

end Graph

namespace Description

section

variable {K : Type} {α : Type} {e : Edit K α} {g : Graph K}
variable {Q : α → Graph K → Prop} {E E' : Fault → Graph K → Prop}

theorem ends_blame {wrap : Fault → Fault} (hEnds : Ends e g Q E)
    (hOverflow : ∀ t, E .overflow t → E' .overflow t)
    (hOther : ∀ cause t, cause ≠ .overflow → E cause t → E' (wrap cause) t) :
    Ends (blame wrap e) g Q E' := by
  refine hEnds.tryCatch (fun fault t hFault => ?_)
  split
  · exact .of_throw (hOverflow t hFault)
  · rename_i hNot
    exact .of_throw (hOther fault t (fun hEq => hNot hEq) hFault)

theorem keeps_blame {P : Graph K → Prop} {wrap : Fault → Fault} (hKeeps : Keeps P e) :
    Keeps P (blame wrap e) :=
  Ends.keeps (fun _ hGraph =>
    ends_blame (.of_keeps hKeeps hGraph) (fun _ hAfter => hAfter) (fun _ _ _ hAfter => hAfter))

end

def Refused (v : Value) (fault : Fault) : Prop :=
  fault.refuses v = true ∨ (fault = .overflow ∧ Oversized v) ∨
    (fault = .tooLong ∧ v.isLong = true)

variable {K : Type} {g : Graph K}

theorem ends_addNode_entry {place : String} {v label entry : Value} {entries : List Value}
    (hItems : items place "nodes" v = .ok entries) (hM : entry ∈ entries)
    (hLabel : label.isLong = true → v.isLong = true) (kind : Kind)
    (body : Option (Graph K)) : Ends (blame (Fault.nodeEntry place label) (do
        let params ← Edit.ofExcept (entryParams entry)
        Graph.addNode kind params body))
      g (fun _ _ => True) (fun fault _ => Refused v fault) := by
  refine ends_blame (E := fun fault _ =>
    fault.isArgument = true ∨ (fault = .overflow ∧ Oversized v)) ?_ ?_ ?_
  · refine .ofExcept_bind (fun params hParams => ?_) (fun fault hFault => ?_)
    · refine (Graph.ends_addNode kind params body).mono (fun _ _ _ => trivial) ?_
      rintro fault _ (hArgument | ⟨hOverflow, i, hParam, hNone⟩)
      · exact .inl hArgument
      · exact .inr ⟨hOverflow, .of_entryParams hItems hM hParams hParam hNone⟩
    · exact .inl (raises_entryParams entry hFault)
  · rintro t (hArgument | hOverflow)
    · cases hArgument
    · exact .inr (.inl hOverflow)
  · rintro cause t hNot (hArgument | ⟨hOverflow, -⟩)
    · exact .inl (Fault.refuses_iff.mpr ⟨hArgument, hLabel⟩)
    · exact absurd hOverflow hNot

variable [Scalar K]

theorem ends_addWire (place : String) (labels : LabelMap) (entry : Value) :
    Ends (addWire place labels entry) g (fun _ _ => True)
      (fun fault _ => fault.refuses entry = true) := by
  have hEnd : ∀ v fault, labels.resolve v = .error fault → fault.refusesWire = true := by
    intro v fault hFault
    rw [Fault.refusesWire, raises_resolve labels v hFault, Bool.or_true]
    rfl
  refine ends_blame (E := fun fault _ => fault.refusesWire = true) ?_ ?_ ?_
  · refine .ofExcept_bind (fun parts _ => ?_) (fun fault hFault => ?_)
    · refine .ofExcept_bind (fun src _ => ?_) (fun fault hFault => hEnd _ _ hFault)
      refine .ofExcept_bind (fun dst _ => ?_) (fun fault hFault => hEnd _ _ hFault)
      exact (Graph.ends_connect rfl rfl).bind (fun _ _ _ => .of_pure trivial)
    · rw [Fault.refusesWire, raises_wireParts entry hFault]
      rfl
  · intro t hOverflow
    cases hOverflow
  · exact fun cause t _ hCause => Fault.refuses_iff.mpr ⟨hCause, id⟩

theorem ends_addEntry {place : String} {labels : LabelMap} {v entry : Value} {entries : List Value}
    (hItems : items place "nodes" v = .ok entries) (hM : entry ∈ entries)
    (hNested : ∀ body, entryBody? entry = some body → ∀ inner fault,
      Graph.ofDescriptionAt (K := K) inner body = .error fault → Refused body fault) :
    Ends (addEntry place labels entry
        ((entryBody? entry).map (fun body inner => Graph.ofDescriptionAt inner body)))
      g (fun _ _ => True) (fun fault _ => Refused v fault) := by
  have hPart : entry.isLong = true → v.isLong = true := isLong_of_items hItems hM
  refine .ofExcept_bind (fun found hFound => ?_) (fun fault hFault =>
    .inl (Fault.refuses_mono (raises_entryLabel _ _ _ hFault) hPart))
  have hLabel := isLong_of_entryLabel hFound
  refine .ofExcept_bind (fun kind _ => ?_) (fun fault hFault =>
    .inl (Fault.refuses_mono (raises_entryKind _ hLabel hFault) hPart))
  have hAdd := fun body => ends_addNode_entry (g := g) hItems hM (hPart ∘ hLabel) kind body
  cases hB : entryBody? entry with
  | none => exact (hAdd none).bind (fun _ _ _ => .of_pure trivial)
  | some body =>
    refine .ofExcept_bind (fun built _ => ?_) (fun fault hFault => ?_)
    · exact (hAdd (some built)).bind (fun _ _ _ => .of_pure trivial)
    · rcases bind_eq_error_iff.mp hFault with hPlace | ⟨inner, -, hBody⟩
      · unfold nestedPlace at hPlace
        split_ifs at hPlace with hLong
        exact .inr (.inr ⟨(Except.error.inj hPlace).symm, hPart (hLabel hLong)⟩)
      · have hInside := fun hLong => hPart (Value.isLong_of_field? (field?_of_entryBody? hB) hLong)
        rcases hNested body hB _ fault hBody with hRef | ⟨rfl, hIn⟩ | ⟨rfl, hIn⟩
        · exact .inl (Fault.refuses_mono hRef hInside)
        · exact .inr (.inl ⟨rfl, .of_entryBody? hItems hM hB hIn⟩)
        · exact .inr (.inr ⟨rfl, hInside hIn⟩)

end Description

---- Reading a Level ----

namespace Graph

variable {K : Type} [Scalar K]

def fill (place : String) (nodes wires : List Value) : Edit K Unit := do
  let labels ← nodes.foldlM (fun labels entry =>
    Description.addEntry place labels entry
      ((Description.entryBody? entry).map (fun body inner => ofDescriptionAt inner body)))
    LabelMap.boundary
  wires.forM (Description.addWire place labels)

theorem nested_eq (nodes : List Value) : nodes.attach.map (fun (x : {x // x ∈ nodes}) =>
      match x with
      | ⟨entry, _hMem⟩ =>
        match _hBody : Description.entryBody? entry with
        | some body => (entry, some (fun inner => ofDescriptionAt (K := K) inner body))
        | none => (entry, none)) =
      nodes.map (fun entry => (entry,
        (Description.entryBody? entry).map (fun body inner => ofDescriptionAt inner body))) := by
  conv_rhs => rw [← attach_map_subtype_val nodes, map_map]
  refine map_congr_left ?_
  rintro ⟨entry, _⟩ -
  dsimp only [Function.comp]
  split <;> rename_i hB <;> rw [hB] <;> rfl

/- A level is read by filling an empty graph. -/
theorem ofDescriptionAt_eq (place : String) (v : Value) : ofDescriptionAt (K := K) place v = (do
      Description.checkKeys place v
      let inputs ← Description.wireTypes place ((v.field? "inputs").getD .null)
      let outputs ← Description.wireTypes place ((v.field? "outputs").getD .null)
      let nodes ← Description.items place "nodes" v
      let wires ← Description.items place "wires" v
      (fill place nodes wires).build (.empty inputs outputs)) := by
  rw [ofDescriptionAt]
  congr 1
  funext _
  congr 1
  funext inputs
  congr 1
  funext outputs
  split
  · rename_i fault hItems
    rw [hItems]
    rfl
  · rename_i nodes hItems
    rw [hItems]
    change _ = (do
      let wires ← Description.items place "wires" v
      (fill place nodes wires).build (.empty inputs outputs))
    congr 1
    funext wires
    refine congrArg (fun labels : Edit K LabelMap =>
      (labels >>= fun labels => wires.forM (Description.addWire place labels)).build
        (.empty inputs outputs)) ?_
    exact (congrArg _ (nested_eq nodes)).trans foldlM_map

theorem of_ofDescriptionAt {P : Graph K → Prop}
    (hEmpty : ∀ inputs outputs, P (.empty inputs outputs))
    (hN : ∀ kind params body, (∀ b, body = some b → P b) → Keeps P (addNode kind params body))
    (hWire : ∀ (n m : Nat) i j, Keeps P (connect ⟨.output, .whole n, i⟩ ⟨.input, .whole m, j⟩))
    {place : String} {v : Value} {g : Graph K} (hRead : ofDescriptionAt place v = .ok g) : P g := by
  induction hSize : sizeOf v using Nat.strong_induction_on generalizing place v g with
  | _ size ih =>
    subst hSize
    rw [ofDescriptionAt_eq] at hRead
    rcases bind_eq_ok_iff.mp hRead with ⟨_, -, hRead⟩
    rcases bind_eq_ok_iff.mp hRead with ⟨inputs, -, hRead⟩
    rcases bind_eq_ok_iff.mp hRead with ⟨outputs, -, hRead⟩
    rcases bind_eq_ok_iff.mp hRead with ⟨nodes, hNodes, hRead⟩
    rcases bind_eq_ok_iff.mp hRead with ⟨wires, -, hRead⟩
    have hKeeps : Keeps P (fill (K := K) place nodes wires) := by
      refine .bind (.foldlM (fun labels entry hM => ?_) _) (fun labels => .forM (fun entry _ => ?_))
      · refine .bind (.ofExcept _) (fun _ => .bind (.ofExcept _) (fun kind => ?_))
        have hAdd : ∀ body : Option (Graph K), (∀ b, body = some b → P b) → ∀ label l, Keeps P (do
              let n ← Description.blame (Fault.nodeEntry place label) (do
                let params ← Edit.ofExcept (Description.entryParams entry)
                addNode kind params body)
              return labels ++ [(l, n)]) :=
          fun body hB label l => .bind (Description.keeps_blame
            (.bind (.ofExcept _) (fun params => hN kind params body hB))) (fun _ => .of_pure _)
        cases hB : Description.entryBody? entry with
        | none => exact hAdd none (fun _ hNone => nomatch hNone) _ _
        | some body =>
          refine .ofExcept_bind (fun built hBuilt => hAdd (some built) ?_ _ _)
          rintro b ⟨⟩
          rcases bind_eq_ok_iff.mp hBuilt with ⟨inner, -, hBuilt⟩
          refine ih (sizeOf body) ?_ hBuilt rfl
          exact Nat.lt_trans (Description.sizeOf_entryBody?_lt hB)
            (Description.sizeOf_items_lt hNodes hM)
      · refine Description.keeps_blame (.bind (.ofExcept _) (fun parts => ?_))
        refine .bind (.ofExcept _) (fun src => .bind (.ofExcept _) (fun dst => ?_))
        exact .bind (hWire _ _ _ _) (fun _ => .of_pure _)
    have hAfter := hKeeps _ (hEmpty inputs outputs)
    unfold Edit.build at hRead
    split at hRead
    · rename_i u t hRun
      obtain rfl := Except.ok.inj hRead
      rwa [show outcome (fill (K := K) place nodes wires) _ = _ from hRun] at hAfter
    · cases hRead

theorem reachable_of_ofDescriptionAt {place : String} {v : Value} {g : Graph K}
    (hRead : ofDescriptionAt place v = .ok g) : g.Reachable :=
  of_ofDescriptionAt .empty (fun _ _ _ hB => keeps_reachable_addNode _ _ hB)
    (fun _ _ _ _ _ hReach => .connect hReach _ _) hRead

theorem keeps_everywhere_connect {Q : Graph K → Prop} {src dst : PinName}
    (hWire : ∀ g n m p q, g.typedPin n src = .ok p → g.typedPin m dst = .ok q → Q g →
      Q (g.insertWire ⟨p.1, q.1⟩)) : Keeps (Everywhere Q) (connect src dst) := by
  refine Ends.keeps (fun g hAll => .get_bind ?_)
  refine .ofExcept_bind (fun s _ => .ofExcept_bind (fun d _ => ?_) fun _ _ => hAll) fun _ _ => hAll
  refine .ofExcept_bind (fun p hP => .ofExcept_bind (fun q hQ => ?_) fun _ _ => hAll)
    fun _ _ => hAll
  refine .get_bind (.of_ite (fun _ => .throw_bind hAll) (fun _ => ?_))
  refine .of_ite (fun _ => .throw_bind hAll) (fun _ => ?_)
  refine .of_ite (fun _ => .throw_bind hAll) (fun _ => .set_bind (.of_pure ?_))
  refine .intro (hWire g s d p q hP hQ hAll.here) (fun node hN b hB => ?_)
  have hOps := (alike_insertWire g ⟨p.1, q.1⟩).ops
  exact hAll.body (hOps ▸ hN) hB

theorem everywhere_of_ofDescriptionAt {Q : Graph K → Prop}
    (hEmpty : ∀ inputs outputs, Q (.empty inputs outputs))
    (hN : ∀ g kind params body, Q g →
      Q ({ g with nextId := g.nextId + 1 }.insertNode ⟨g.nextId, kind, params, body, none⟩))
    (hWire : ∀ g (n m k l : Nat) i j p q, g.typedPin n ⟨.output, .whole k, i⟩ = .ok p →
      g.typedPin m ⟨.input, .whole l, j⟩ = .ok q → Q g → Q (g.insertWire ⟨p.1, q.1⟩))
    {place : String}
    {v : Value}
    {g : Graph K}
    (hRead : ofDescriptionAt place v = .ok g) : Everywhere Q g :=
  of_ofDescriptionAt (fun _ _ => .intro (hEmpty _ _) (fun _ hN => nomatch hN))
    (fun _ params _ hB => keeps_everywhere_addNode (fun _ _ => hN _ _ _ _) hB params)
    (fun _ _ _ _ => keeps_everywhere_connect (fun _ _ _ _ _ => hWire _ _ _ _ _ _ _ _ _)) hRead

theorem owned_of_ofDescriptionAt {place : String} {v : Value} {g : Graph K}
    (hRead : ofDescriptionAt place v = .ok g) : Everywhere Owned g := by
  refine everywhere_of_ofDescriptionAt (fun _ _ _ hN => nomatch hN) ?_ ?_ hRead
  · intro g kind params body hOwned node hN
    rcases mem_append.mp hN with hOld | hNew
    · exact hOwned node hOld
    · rw [mem_singleton.mp hNew]
  · intro g n m k l i j p q _ _ hOwned node hN
    exact hOwned node ((alike_insertWire g ⟨p.1, q.1⟩).ops ▸ hN)

end Graph

---- Reading a Description ----

variable {K : Type} [Scalar K]

/- Reading fails for reasons that are known, at whatever level it does. -/
theorem Description.refused_of_ofDescriptionAt {place : String} {v : Value} {fault : Fault}
    (hFault : Graph.ofDescriptionAt (K := K) place v = .error fault) : Refused v fault := by
  induction hSize : sizeOf v using Nat.strong_induction_on generalizing place v fault with
  | _ size ih =>
    subst hSize
    rw [Graph.ofDescriptionAt_eq] at hFault
    rcases bind_eq_error_iff.mp hFault with hKeys | ⟨_, -, hFault⟩
    · exact .inl (raises_checkKeys _ _ hKeys)
    rcases bind_eq_error_iff.mp hFault with hInputs | ⟨inputs, -, hFault⟩
    · exact .inl (Fault.refuses_mono (raises_wireTypes _ _ hInputs) Value.isLong_of_getD)
    rcases bind_eq_error_iff.mp hFault with hOuts | ⟨outputs, -, hFault⟩
    · exact .inl (Fault.refuses_mono (raises_wireTypes _ _ hOuts) Value.isLong_of_getD)
    rcases bind_eq_error_iff.mp hFault with hNodes | ⟨nodes, hNodes, hFault⟩
    · exact .inl (raises_items _ _ _ hNodes)
    rcases bind_eq_error_iff.mp hFault with hWires | ⟨wires, hWires, hFault⟩
    · exact .inl (raises_items _ _ _ hWires)
    have hEnds : Ends (Graph.fill (K := K) place nodes wires) (.empty inputs outputs)
        (fun _ _ => True) (fun fault _ => Refused v fault) := by
      refine Ends.bind (Q := fun _ _ => True) (.foldlM trivial (fun labels t entry hM _ => ?_)) ?_
      · refine ends_addEntry hNodes hM (fun body hB inner fault hIn => ?_)
        refine ih (sizeOf body) ?_ hIn rfl
        exact Nat.lt_trans (sizeOf_entryBody?_lt hB) (sizeOf_items_lt hNodes hM)
      · intro labels t _
        refine .forM trivial (fun t entry hM _ => ?_)
        exact (ends_addWire place labels entry).mono (fun _ _ _ => trivial) (fun _ _ hBad =>
          .inl (Fault.refuses_mono hBad (isLong_of_items hWires hM)))
    unfold Edit.build at hFault
    split at hFault
    · cases hFault
    · rename_i cause t hRun
      obtain rfl := Except.error.inj hFault
      exact hEnds.2 cause t hRun

namespace Graph

/-
  Every value is read as a graph that passes the check at
  every level, or it is refused as malformed, or one of the
  parameters in it is too large for a double, or it holds an
  integer that is too long for a message.
-/
theorem ofDescription_valid_or_refused
    (v : Value) :
    (∃ g : Graph K, ofDescription v = .ok g ∧ Everywhere (fun h => h.validate = .ok ()) g) ∨
      (∃ fault, ofDescription (K := K) v = .error fault ∧ fault.isMalformed = true) ∨
      (ofDescription (K := K) v = .error .overflow ∧ Description.Oversized v) ∨
      (ofDescription (K := K) v = .error .tooLong ∧ v.isLong = true) := by
  unfold ofDescription ofDescriptionUnchecked
  cases hRead : ofDescriptionAt (K := K) "graph" v with
  | error fault =>
    rcases Description.refused_of_ofDescriptionAt hRead with hRef | ⟨rfl, hOversized⟩ | ⟨rfl, hLong⟩
    · rcases Fault.refuses_iff.mp hRef with ⟨hMalformed, hPart⟩
      by_cases hLong : fault.isLong = true
      · exact .inr (.inr (.inr ⟨by simp [hLong, bind, Except.bind], hPart hLong⟩))
      · exact .inr (.inl ⟨fault, by simp [hLong, bind, Except.bind], hMalformed⟩)
    · exact .inr (.inr (.inl ⟨rfl, hOversized⟩))
    · exact .inr (.inr (.inr ⟨rfl, hLong⟩))
  | ok g =>
    have hIntact := (reachable_of_ofDescriptionAt hRead).intact
    cases hCheck : g.validate with
    | ok u =>
      refine .inl ⟨g, ?_, hIntact.everywhere_validate hCheck⟩
      simp [bind, Except.bind, hCheck, pure, Except.pure]
    | error cause =>
      refine .inr (.inl ⟨.invalidGraph cause, ?_, ?_⟩)
      · simp [bind, Except.bind, hCheck, throw, throwThe, MonadExceptOf.throw]
      · exact hIntact.fault_of_validate (owned_of_ofDescriptionAt hRead) hCheck

/- A wire from a node that no entry names, whose message cannot be written. -/
theorem ofDescription_too_long :
    ∃ v : Value, ofDescription (K := ℚ) v = .error .tooLong ∧ ¬ Description.Oversized v ∧
      Fault.tooLong.isMalformed = false := by
  let v : Value := .record [("inputs", .list []), ("outputs", .list []), ("nodes", .list []),
    ("wires", .list [.list [.whole (10 ^ 4300), .whole 0, .text "output", .whole 0]])]
  refine ⟨v, ?_, ?_, rfl⟩
  · have hRun : ((ofDescriptionAt (K := ℚ) "graph" v).mapError Fault.isLong).map (fun _ => ()) =
        .error true := by
      rw [ofDescriptionAt_eq]
      decide +kernel
    unfold ofDescription ofDescriptionUnchecked
    cases hRead : ofDescriptionAt (K := ℚ) "graph" v with
    | error fault =>
      rw [hRead] at hRun
      have hLong : fault.isLong = true := Except.error.inj hRun
      simp [hLong, bind, Except.bind]
    | ok g =>
      rw [hRead] at hRun
      cases hRun
  · rintro (⟨hNodes, hM, -⟩ | ⟨hNodes, hM, -⟩)
    all_goals
      obtain rfl := Value.list.inj (Option.some.inj hNodes)
      cases hM

end Graph

end CircuitGraph
