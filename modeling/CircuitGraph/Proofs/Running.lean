import CircuitGraph.Graph.Edit
import Mathlib.Data.List.Forall2
import Mathlib.Tactic.TypeStar

/-
  Computations that may fail and may change a state.

  A computation yields a result and a state, or it fails and
  leaves a state behind.
-/

---- Results without a State ----

namespace CircuitGraph

open List

variable {α β ε : Type}

theorem lt_of_getElem? {xs : List α} {i : Nat} {x : α} (hAt : xs[i]? = some x) : i < xs.length :=
  (List.getElem?_eq_some_iff.mp hAt).1

theorem bind_eq_ok_iff {x : Except ε α} {f : α → Except ε β} {b : β} :
    (x >>= f) = .ok b ↔ ∃ a, x = .ok a ∧ f a = .ok b := by
  cases x with
  | error e => simp [bind, Except.bind]
  | ok a => simp [bind, Except.bind]

theorem bind_eq_error_iff {x : Except ε α} {f : α → Except ε β} {e : ε} :
    (x >>= f) = .error e ↔ x = .error e ∨ ∃ a, x = .ok a ∧ f a = .error e := by
  cases x with
  | error e' => simp [bind, Except.bind]
  | ok a => simp [bind, Except.bind]

theorem forM_eq_ok_iff {xs : List α} {f : α → Except ε Unit} {u : Unit} :
    xs.forM f = .ok u ↔ ∀ x ∈ xs, f x = .ok () := by
  induction xs with
  | nil => simp [pure, Except.pure]
  | cons x xs ih =>
    have hCons : (x :: xs).forM f = f x >>= fun _ => xs.forM f := rfl
    rw [hCons, bind_eq_ok_iff]
    constructor
    · rintro ⟨⟨⟩, hHead, hTail⟩ y hM
      rcases mem_cons.mp hM with rfl | hM
      · exact hHead
      · exact ih.mp hTail y hM
    · intro hAll
      exact ⟨⟨⟩, hAll x mem_cons_self, ih.mpr (fun y hM => hAll y (mem_cons_of_mem _ hM))⟩

theorem exists_of_forM_error {xs : List α} {f : α → Except ε Unit} {e : ε}
    (hError : xs.forM f = .error e) : ∃ x ∈ xs, f x = .error e := by
  induction xs with
  | nil => cases hError
  | cons x xs ih =>
    rcases (bind_eq_error_iff (f := fun _ => xs.forM f)).mp hError with hHead | ⟨_, -, hTail⟩
    · exact ⟨x, mem_cons_self, hHead⟩
    · rcases ih hTail with ⟨y, hM, hError⟩
      exact ⟨y, mem_cons_of_mem _ hM, hError⟩

theorem mapM_eq_ok_iff {xs : List α} {f : α → Except ε β} {ys : List β} :
    xs.mapM f = .ok ys ↔ List.Forall₂ (fun x y => f x = .ok y) xs ys := by
  induction xs generalizing ys with
  | nil =>
    cases ys <;> simp [pure, Except.pure]
  | cons x xs ih =>
    rw [mapM_cons, bind_eq_ok_iff]
    constructor
    · rintro ⟨y, hHead, hRest⟩
      rcases bind_eq_ok_iff.mp hRest with ⟨rest, hTail, hEq⟩
      obtain rfl : y :: rest = ys := by simpa [pure, Except.pure] using hEq
      exact .cons hHead (ih.mp hTail)
    · intro hAll
      cases hAll with
      | @cons _ y _ rest hHead hTail =>
        exact ⟨y, hHead, bind_eq_ok_iff.mpr ⟨rest, ih.mpr hTail, rfl⟩⟩

section

variable {xs : List α} {f : α → Except ε β} {ys : List β} (hAll : xs.mapM f = .ok ys)

include hAll

theorem exists_of_mapM_left {x : α} (hM : x ∈ xs) : ∃ y ∈ ys, f x = .ok y := by
  induction mapM_eq_ok_iff.mp hAll with
  | nil => simp at hM
  | cons hHead hTail ih =>
    rcases mem_cons.mp hM with rfl | hM
    · exact ⟨_, mem_cons_self, hHead⟩
    · rcases ih (mapM_eq_ok_iff.mpr hTail) hM with ⟨y, hFnd, hEq⟩
      exact ⟨y, mem_cons_of_mem _ hFnd, hEq⟩

theorem exists_of_mapM_right {y : β} (hM : y ∈ ys) : ∃ x ∈ xs, f x = .ok y := by
  induction mapM_eq_ok_iff.mp hAll with
  | nil => simp at hM
  | cons hHead hTail ih =>
    rcases mem_cons.mp hM with rfl | hM
    · exact ⟨_, mem_cons_self, hHead⟩
    · rcases ih (mapM_eq_ok_iff.mpr hTail) hM with ⟨x, hFnd, hEq⟩
      exact ⟨x, mem_cons_of_mem _ hFnd, hEq⟩

end

theorem exists_of_mapM_error {xs : List α} {f : α → Except ε β} {e : ε}
    (hError : xs.mapM f = .error e) : ∃ x ∈ xs, f x = .error e := by
  induction xs with
  | nil => simp [pure, Except.pure] at hError
  | cons x xs ih =>
    rw [mapM_cons] at hError
    rcases bind_eq_error_iff.mp hError with hHead | ⟨_, -, hRest⟩
    · exact ⟨x, mem_cons_self, hHead⟩
    · rcases bind_eq_error_iff.mp hRest with hTail | ⟨_, -, hPure⟩
      · rcases ih hTail with ⟨y, hM, hError⟩
        exact ⟨y, mem_cons_of_mem _ hM, hError⟩
      · cases hPure

section

variable {xs : List α} {f : α → Except ε β} {ys : List β} (hAll : xs.mapM f = .ok ys)

include hAll

theorem getElem?_of_mapM {i : Nat} {x : α} (hAt : xs[i]? = some x) :
    ∃ y, ys[i]? = some y ∧ f x = .ok y := by
  have hBoth := mapM_eq_ok_iff.mp hAll
  rcases List.getElem?_eq_some_iff.mp hAt with ⟨hLt, rfl⟩
  have hLt' : i < ys.length := hBoth.length_eq ▸ hLt
  exact ⟨ys[i], getElem?_eq_getElem hLt', hBoth.get hLt hLt'⟩

theorem length_of_mapM : ys.length = xs.length :=
  (mapM_eq_ok_iff.mp hAll).length_eq.symm

end

theorem eq_of_ok {x : Except ε α} {a b : α} (hL : x = .ok a) (hR : x = .ok b) : a = b :=
  Except.ok.inj (hL.symm.trans hR)

theorem eq_of_some {x : Option α} {a b : α} (hL : x = some a) (hR : x = some b) : a = b :=
  Option.some.inj (hL.symm.trans hR)

theorem exists_of_isOk {e : Except ε α} (hOk : e.isOk = true) : ∃ a, e = .ok a := by
  cases e with
  | error fault => cases hOk
  | ok a => exact ⟨a, rfl⟩

theorem exists_of_toOption_any {e : Except ε α} {p : α → Bool} (hAny : e.toOption.any p = true) :
    ∃ a, e = .ok a ∧ p a = true := by
  cases e with
  | error fault => cases hAny
  | ok a => exact ⟨a, rfl, hAny⟩

theorem exists_mapM_eq_ok {xs : List α} {f : α → Except ε β} (hAll : ∀ x ∈ xs, ∃ y, f x = .ok y) :
    ∃ ys, xs.mapM f = .ok ys := by
  induction xs with
  | nil => exact ⟨[], rfl⟩
  | cons x xs ih =>
    rcases hAll x mem_cons_self with ⟨y, hHead⟩
    rcases ih (fun z hM => hAll z (mem_cons_of_mem _ hM)) with ⟨ys, hTail⟩
    exact ⟨y :: ys, mapM_eq_ok_iff.mpr (.cons hHead (mapM_eq_ok_iff.mp hTail))⟩

---- Results with a State ----

variable {σ : Type}

def outcome (e : ExceptT ε (StateM σ) α) (s : σ) : Except ε α × σ :=
  (ExceptT.run e).run s

def Yields (e : ExceptT ε (StateM σ) α) (s : σ) (a : α) (s' : σ) : Prop :=
  outcome e s = (.ok a, s')

def Fails (e : ExceptT ε (StateM σ) α) (s : σ) (fault : ε) (s' : σ) : Prop :=
  outcome e s = (.error fault, s')

section

variable {e : ExceptT ε (StateM σ) α} {f : α → ExceptT ε (StateM σ) β} {s s' : σ}

theorem outcome_bind (e : ExceptT ε (StateM σ) α) (f : α → ExceptT ε (StateM σ) β) (s : σ) :
    outcome (e >>= f) s = match outcome e s with
      | (.ok a, t) => outcome (f a) t
      | (.error fault, t) => (.error fault, t) := by
  unfold outcome
  rw [ExceptT.run_bind, StateT.run_bind]
  rcases hRun : (ExceptT.run e).run s with ⟨result, t⟩
  cases result with
  | ok a => rfl
  | error fault => rfl

theorem outcome_tryCatch (e : ExceptT ε (StateM σ) α) (handle : ε → ExceptT ε (StateM σ) α)
    (s : σ) : outcome (tryCatch e handle) s = match outcome e s with
      | (.ok a, t) => (.ok a, t)
      | (.error fault, t) => outcome (handle fault) t := by
  change StateT.run (ExceptT.tryCatch e handle) s = _
  unfold ExceptT.tryCatch
  rw [ExceptT.mk, StateT.run_bind]
  rcases hRun : outcome e s with ⟨result, t⟩
  have hFirst : StateT.run e s = (result, t) := hRun
  rw [hFirst]
  cases result with
  | ok a => rfl
  | error fault => rfl

theorem yields_or_fails (e : ExceptT ε (StateM σ) α) (s : σ) :
    (∃ a s', Yields e s a s') ∨ ∃ fault s', Fails e s fault s' := by
  rcases hRun : outcome e s with ⟨result, s'⟩
  cases result with
  | ok a => exact .inl ⟨a, s', hRun⟩
  | error fault => exact .inr ⟨fault, s', hRun⟩

theorem Yields.unique {a b : α} {t : σ} (hL : Yields e s a s') (hR : Yields e s b t) :
    a = b ∧ s' = t := by
  simpa using hL.symm.trans hR

theorem Yields.not_fails {a : α} {fault : ε} {t : σ} (hY : Yields e s a s') :
    ¬ Fails e s fault t := by
  intro hFails
  simpa using hY.symm.trans hFails

@[simp] theorem yields_pure_iff {a b : α} :
    Yields (pure b : ExceptT ε (StateM σ) α) s a s' ↔ a = b ∧ s' = s := by
  have hRun : outcome (pure b : ExceptT ε (StateM σ) α) s = (.ok b, s) := rfl
  simp [Yields, hRun, eq_comm]

@[simp] theorem not_fails_pure {b : α} {fault : ε} :
    ¬ Fails (pure b : ExceptT ε (StateM σ) α) s fault s' := by
  have hRun : outcome (pure b : ExceptT ε (StateM σ) α) s = (.ok b, s) := rfl
  simp [Fails, hRun]

theorem yields_bind_iff {b : β} :
    Yields (e >>= f) s b s' ↔ ∃ a t, Yields e s a t ∧ Yields (f a) t b s' := by
  unfold Yields
  rw [outcome_bind]
  rcases outcome e s with ⟨result, t⟩
  cases result with
  | ok a => simp
  | error fault => simp

theorem Yields.bind {a : α} {b : β} {t u : σ} (hFirst : Yields e s a t)
    (hThen : Yields (f a) t b u) : Yields (e >>= f) s b u :=
  yields_bind_iff.mpr ⟨a, t, hFirst, hThen⟩

theorem fails_bind_iff {fault : ε} : Fails (e >>= f) s fault s' ↔
      Fails e s fault s' ∨ ∃ a t, Yields e s a t ∧ Fails (f a) t fault s' := by
  unfold Fails Yields
  rw [outcome_bind]
  rcases outcome e s with ⟨result, t⟩
  cases result with
  | ok a => simp
  | error fault => simp

theorem Fails.bind {fault : ε} (hFirst : Fails e s fault s') : Fails (e >>= f) s fault s' :=
  fails_bind_iff.mpr (.inl hFirst)

theorem Yields.fails_bind {a : α} {t : σ} {fault : ε} (hFirst : Yields e s a t)
    (hThen : Fails (f a) t fault s') : Fails (e >>= f) s fault s' :=
  fails_bind_iff.mpr (.inr ⟨a, t, hFirst, hThen⟩)

@[simp] theorem yields_map_iff {b : β} {h : α → β} :
    Yields (h <$> e) s b s' ↔ ∃ a, Yields e s a s' ∧ b = h a := by
  rw [← bind_pure_comp, yields_bind_iff]
  constructor
  · rintro ⟨a, t, hY, hPure⟩
    obtain ⟨rfl, rfl⟩ := yields_pure_iff.mp hPure
    exact ⟨a, hY, rfl⟩
  · rintro ⟨a, hY, rfl⟩
    exact ⟨a, s', hY, rfl⟩

@[simp] theorem fails_map_iff {fault : ε} {h : α → β} :
    Fails (h <$> e) s fault s' ↔ Fails e s fault s' := by
  rw [← bind_pure_comp, fails_bind_iff]
  simp

@[simp] theorem not_yields_throw {a : α} {fault : ε} :
    ¬ Yields (throw fault : ExceptT ε (StateM σ) α) s a s' := by
  have hRun : outcome (throw fault : ExceptT ε (StateM σ) α) s = (.error fault, s) := rfl
  simp [Yields, hRun]

@[simp] theorem fails_throw_iff {fault other : ε} :
    Fails (throw fault : ExceptT ε (StateM σ) α) s other s' ↔ other = fault ∧ s' = s := by
  have hRun : outcome (throw fault : ExceptT ε (StateM σ) α) s = (.error fault, s) := rfl
  simp [Fails, hRun, eq_comm]

@[simp] theorem yields_get_iff {t : σ} :
    Yields (get : ExceptT ε (StateM σ) σ) s t s' ↔ t = s ∧ s' = s := by
  have hRun : outcome (get : ExceptT ε (StateM σ) σ) s = (.ok s, s) := rfl
  simp [Yields, hRun, eq_comm]

theorem Yields.get_bind {f : σ → ExceptT ε (StateM σ) β} {b : β} (hY : Yields (get >>= f) s b s') :
    Yields (f s) s b s' :=
  hY

@[simp] theorem not_fails_get {fault : ε} : ¬ Fails (get : ExceptT ε (StateM σ) σ) s fault s' := by
  have hRun : outcome (get : ExceptT ε (StateM σ) σ) s = (.ok s, s) := rfl
  simp [Fails, hRun]

@[simp] theorem yields_set_iff {t : σ} {u : PUnit} :
    Yields (set t : ExceptT ε (StateM σ) PUnit) s u s' ↔ s' = t := by
  have hRun : outcome (set t : ExceptT ε (StateM σ) PUnit) s = (.ok ⟨⟩, t) := rfl
  simp [Yields, hRun, eq_comm]

@[simp] theorem yields_modify_iff {h : σ → σ} {u : PUnit} :
    Yields (modify h : ExceptT ε (StateM σ) PUnit) s u s' ↔ s' = h s := by
  have hRun : outcome (modify h : ExceptT ε (StateM σ) PUnit) s = (.ok ⟨⟩, h s) := rfl
  simp [Yields, hRun, eq_comm]

@[simp] theorem not_fails_modify {h : σ → σ} {fault : ε} :
    ¬ Fails (modify h : ExceptT ε (StateM σ) PUnit) s fault s' := by
  have hRun : outcome (modify h : ExceptT ε (StateM σ) PUnit) s = (.ok ⟨⟩, h s) := rfl
  simp [Fails, hRun]

theorem yields_tryCatch_iff {handle : ε → ExceptT ε (StateM σ) α} {a : α} :
    Yields (tryCatch e handle) s a s' ↔
      Yields e s a s' ∨ ∃ fault t, Fails e s fault t ∧ Yields (handle fault) t a s' := by
  unfold Yields Fails
  rw [outcome_tryCatch]
  rcases outcome e s with ⟨result, t⟩
  cases result with
  | ok a => simp
  | error fault => simp

theorem fails_tryCatch_iff {handle : ε → ExceptT ε (StateM σ) α} {other : ε} :
    Fails (tryCatch e handle) s other s' ↔
      ∃ fault t, Fails e s fault t ∧ Fails (handle fault) t other s' := by
  unfold Fails
  rw [outcome_tryCatch]
  rcases outcome e s with ⟨result, t⟩
  cases result with
  | ok a => simp
  | error fault => simp

@[simp] theorem yields_forM_nil_iff {h : α → ExceptT ε (StateM σ) Unit} {u : Unit} :
    Yields ([].forM h) s u s' ↔ s' = s := by
  change Yields (pure ⟨⟩) s u s' ↔ s' = s
  simp

theorem yields_forM_cons_iff {h : α → ExceptT ε (StateM σ) Unit} {x : α} {xs : List α} {u : Unit} :
    Yields ((x :: xs).forM h) s u s' ↔ ∃ t, Yields (h x) s () t ∧ Yields (xs.forM h) t u s' := by
  change Yields (h x >>= fun _ => xs.forM h) s u s' ↔ _
  rw [yields_bind_iff]
  constructor
  · rintro ⟨⟨⟩, t, hHead, hTail⟩
    exact ⟨t, hHead, hTail⟩
  · rintro ⟨t, hHead, hTail⟩
    exact ⟨(), t, hHead, hTail⟩

@[simp] theorem yields_mapM_nil_iff {f : α → ExceptT ε (StateM σ) β} {bs : List β} :
    Yields (List.mapM f []) s bs s' ↔ bs = [] ∧ s' = s := by
  rw [mapM_nil]
  exact yields_pure_iff

theorem yields_mapM_cons_iff {f : α → ExceptT ε (StateM σ) β} {x : α} {xs : List α} {bs : List β} :
    Yields (List.mapM f (x :: xs)) s bs s' ↔
      ∃ b rest t, Yields (f x) s b t ∧ Yields (List.mapM f xs) t rest s' ∧ bs = b :: rest := by
  rw [mapM_cons, yields_bind_iff]
  constructor
  · rintro ⟨b, t, hHead, hTail⟩
    rcases yields_bind_iff.mp hTail with ⟨rest, t', hRest, hPure⟩
    obtain ⟨rfl, rfl⟩ := yields_pure_iff.mp hPure
    exact ⟨b, rest, t, hHead, hRest, rfl⟩
  · rintro ⟨b, rest, t, hHead, hRest, rfl⟩
    refine ⟨b, t, hHead, .bind hRest ?_⟩
    exact rfl

end

namespace Edit

variable {K : Type} {g g' : Graph K}

@[simp] theorem yields_ofExcept_iff {r : Except Fault α} {a : α} :
    Yields (ofExcept r : Edit K α) g a g' ↔ r = .ok a ∧ g' = g := by
  cases r with
  | ok b => simp [ofExcept, eq_comm]
  | error fault => simp [ofExcept]

@[simp] theorem fails_ofExcept_iff {r : Except Fault α} {fault : Fault} :
    Fails (ofExcept r : Edit K α) g fault g' ↔ r = .error fault ∧ g' = g := by
  cases r with
  | ok b => simp [ofExcept]
  | error fault => simp [ofExcept, eq_comm]

@[simp] theorem not_yields_refuse {fault : ArgumentFault} {a : α} :
    ¬ Yields (refuse fault : Edit K α) g a g' :=
  not_yields_throw

theorem build_eq_ok_iff {e : Edit K Unit} : e.build g = .ok g' ↔ Yields e g () g' := by
  unfold build runOn Yields outcome
  generalize (ExceptT.run e).run g = result
  rcases result with ⟨fault | u, state⟩
  · constructor
    · intro hEq
      cases hEq
    · intro hEq
      cases (Prod.mk.inj hEq).1
  · constructor
    · intro hEq
      rw [Except.ok.inj hEq]
    · intro hEq
      rw [(Prod.mk.inj hEq).2]

end Edit

namespace Yields

variable {K : Type} {g g' : Graph K}

theorem ofExcept {r : Except Fault α} {a : α} (hOk : r = .ok a) :
    Yields (Edit.ofExcept r : Edit K α) g a g :=
  Edit.yields_ofExcept_iff.mpr ⟨hOk, rfl⟩

theorem ofExcept_bind {r : Except Fault α} {f : α → Edit K β} {b : β}
    (hY : Yields (Edit.ofExcept r >>= f) g b g') : ∃ a, r = .ok a ∧ Yields (f a) g b g' := by
  rcases yields_bind_iff.mp hY with ⟨a, _, hFirst, hRest⟩
  obtain ⟨hOk, rfl⟩ := Edit.yields_ofExcept_iff.mp hFirst
  exact ⟨a, hOk, hRest⟩

end Yields

---- Properties Kept ----

/- Whether a property of states still holds after a computation, even if it fails. -/
def Keeps (P : σ → Prop) (e : ExceptT ε (StateM σ) α) : Prop :=
  ∀ s, P s → P (outcome e s).2

namespace Keeps

variable {P : σ → Prop} {e : ExceptT ε (StateM σ) α} {f : α → ExceptT ε (StateM σ) β}

theorem of_yields (hKeeps : Keeps P e) {s s' : σ} {a : α} (hY : Yields e s a s')
    (hState : P s) : P s' := by
  have hAfter := hKeeps s hState
  rwa [hY] at hAfter

theorem of_pure (a : α) : Keeps P (pure a : ExceptT ε (StateM σ) α) :=
  fun _ hState => hState

theorem of_throw (fault : ε) : Keeps P (throw fault : ExceptT ε (StateM σ) α) :=
  fun _ hState => hState

theorem of_get : Keeps P (get : ExceptT ε (StateM σ) σ) :=
  fun _ hState => hState

theorem and {P' : σ → Prop} (hL : Keeps P e) (hR : Keeps P' e) : Keeps (fun s => P s ∧ P' s) e :=
  fun s hBoth => ⟨hL s hBoth.1, hR s hBoth.2⟩

theorem bind (hFirst : Keeps P e) (hThen : ∀ a, Keeps P (f a)) : Keeps P (e >>= f) := by
  intro s hState
  have hMid := hFirst s hState
  rw [outcome_bind]
  rcases hRun : outcome e s with ⟨result, t⟩
  rw [hRun] at hMid
  cases result with
  | ok a => exact hThen a t hMid
  | error fault => exact hMid

theorem forM {xs : List α} {h : α → ExceptT ε (StateM σ) Unit} (hEach : ∀ x ∈ xs, Keeps P (h x)) :
    Keeps P (xs.forM h) := by
  induction xs with
  | nil => exact of_pure ()
  | cons x xs ih =>
    refine bind (hEach x mem_cons_self) (fun _ => ih ?_)
    exact fun y hM => hEach y (mem_cons_of_mem _ hM)

theorem mapM {xs : List α} (hEach : ∀ x ∈ xs, Keeps P (f x)) : Keeps P (xs.mapM f) := by
  induction xs with
  | nil =>
    rw [mapM_nil]
    exact of_pure []
  | cons x xs ih =>
    rw [mapM_cons]
    refine bind (hEach x mem_cons_self) (fun b => bind (ih ?_) (fun bs => of_pure _))
    exact fun y hM => hEach y (mem_cons_of_mem _ hM)

theorem ofExcept {K : Type} {P : Graph K → Prop} (r : Except Fault α) :
    Keeps P (Edit.ofExcept r : Edit K α) := by
  cases r with
  | ok a => exact of_pure a
  | error fault => exact of_throw fault

theorem ofExcept_bind {K : Type} {P : Graph K → Prop} {r : Except Fault α} {f : α → Edit K β}
    (hOk : ∀ a, r = .ok a → Keeps P (f a)) : Keeps P (Edit.ofExcept r >>= f) := by
  cases r with
  | ok a => exact hOk a rfl
  | error fault => exact fun _ hState => hState

theorem foldlM {f : β → α → ExceptT ε (StateM σ) β} {xs : List α}
    (hEach : ∀ b, ∀ x ∈ xs, Keeps P (f b x)) (b : β) : Keeps P (xs.foldlM f b) := by
  induction xs generalizing b with
  | nil => exact of_pure b
  | cons x xs ih =>
    refine bind (hEach b x mem_cons_self) (fun b' => ih (fun b y hM => ?_) b')
    exact hEach b y (mem_cons_of_mem _ hM)

end Keeps

---- Endings ----

def Ends (e : ExceptT ε (StateM σ) α) (s : σ) (Q : α → σ → Prop) (E : ε → σ → Prop) : Prop :=
  (∀ a s', Yields e s a s' → Q a s') ∧ ∀ fault s', Fails e s fault s' → E fault s'

namespace Ends

variable {e : ExceptT ε (StateM σ) α} {f : α → ExceptT ε (StateM σ) β} {s : σ}
variable {Q Q' : α → σ → Prop} {R : β → σ → Prop} {E E' : ε → σ → Prop}

theorem mono (hEnds : Ends e s Q E) (hRes : ∀ a s', Q a s' → Q' a s')
    (hFault : ∀ fault s', E fault s' → E' fault s') : Ends e s Q' E' :=
  ⟨fun a s' hY => hRes a s' (hEnds.1 a s' hY),
    fun fault s' hFails => hFault fault s' (hEnds.2 fault s' hFails)⟩

theorem loosen (hEnds : Ends e s Q E) : Ends e s Q (fun _ _ => True) :=
  ⟨hEnds.1, fun _ _ _ => trivial⟩

theorem and (hL : Ends e s Q E) (hR : Ends e s Q' E') : Ends e s (fun a s' => Q a s' ∧ Q' a s') E :=
  ⟨fun a s' hY => ⟨hL.1 a s' hY, hR.1 a s' hY⟩, hL.2⟩

theorem of_pure {a : α} (hRes : Q a s) : Ends (pure a : ExceptT ε (StateM σ) α) s Q E := by
  constructor
  · intro b s' hY
    obtain ⟨rfl, rfl⟩ := yields_pure_iff.mp hY
    exact hRes
  · intro fault s' hFails
    exact absurd hFails not_fails_pure

theorem of_throw {fault : ε} (hFault : E fault s) :
    Ends (throw fault : ExceptT ε (StateM σ) α) s Q E := by
  constructor
  · intro b s' hY
    exact absurd hY not_yields_throw
  · intro other s' hFails
    obtain ⟨rfl, rfl⟩ := fails_throw_iff.mp hFails
    exact hFault

theorem with_yields (hEnds : Ends e s Q E) : Ends e s (fun a s' => Q a s' ∧ Yields e s a s') E :=
  ⟨fun a s' hY => ⟨hEnds.1 a s' hY, hY⟩, hEnds.2⟩

theorem bind (hFirst : Ends e s Q E) (hThen : ∀ a t, Q a t → Ends (f a) t R E) :
    Ends (e >>= f) s R E := by
  constructor
  · intro b s' hY
    rcases yields_bind_iff.mp hY with ⟨a, t, hL, hR⟩
    exact (hThen a t (hFirst.1 a t hL)).1 b s' hR
  · intro fault s' hFails
    rcases fails_bind_iff.mp hFails with hL | ⟨a, t, hL, hR⟩
    · exact hFirst.2 fault s' hL
    · exact (hThen a t (hFirst.1 a t hL)).2 fault s' hR

theorem of_ite {c : Prop} [Decidable c] {e' : ExceptT ε (StateM σ) α} (hThen : c → Ends e s Q E)
    (hElse : ¬ c → Ends e' s Q E) : Ends (if c then e else e') s Q E := by
  split
  · exact hThen ‹_›
  · exact hElse ‹_›

theorem throw_bind {fault : ε} (hFault : E fault s) :
    Ends ((throw fault : ExceptT ε (StateM σ) α) >>= f) s R E :=
  bind (Q := fun _ _ => False) (of_throw hFault) (fun _ _ hNever => hNever.elim)

theorem ofExcept_bind {K : Type} {g : Graph K} {r : Except Fault α} {f : α → Edit K β}
    {R : β → Graph K → Prop} {E : Fault → Graph K → Prop} (hOk : ∀ a, r = .ok a → Ends (f a) g R E)
    (hFault : ∀ fault, r = .error fault → E fault g) : Ends (Edit.ofExcept r >>= f) g R E := by
  cases r with
  | ok a => exact hOk a rfl
  | error fault => exact throw_bind (hFault fault rfl)

theorem get_bind {f : σ → ExceptT ε (StateM σ) β} (hThen : Ends (f s) s R E) :
    Ends (get >>= f) s R E :=
  hThen

theorem modify_bind {h : σ → σ} {f : PUnit → ExceptT ε (StateM σ) β}
    (hThen : Ends (f ⟨⟩) (h s) R E) : Ends (modify h >>= f) s R E :=
  hThen

theorem set_bind {t : σ} {f : PUnit → ExceptT ε (StateM σ) β} (hThen : Ends (f ⟨⟩) t R E) :
    Ends (set t >>= f) s R E :=
  hThen

theorem of_modify {h : σ → σ} {R : PUnit → σ → Prop} (hRes : R ⟨⟩ (h s)) :
    Ends (modify h : ExceptT ε (StateM σ) PUnit) s R E := by
  constructor
  · intro u s' hY
    rw [yields_modify_iff.mp hY]
    exact hRes
  · intro fault s' hFails
    exact absurd hFails not_fails_modify

theorem foldlM {f : β → α → ExceptT ε (StateM σ) β} {xs : List α} {b : β} (hStart : R b s)
    (hTurn : ∀ b t, ∀ x ∈ xs, R b t → Ends (f b x) t R E) : Ends (xs.foldlM f b) s R E := by
  induction xs generalizing b s with
  | nil => exact of_pure hStart
  | cons x xs ih =>
    rw [foldlM_cons]
    refine bind (hTurn b s x mem_cons_self hStart) (fun b' t hMid => ih hMid ?_)
    exact fun c u y hM => hTurn c u y (mem_cons_of_mem _ hM)

theorem tryCatch {handle : ε → ExceptT ε (StateM σ) α} (hTry : Ends e s Q E)
    (hHandle : ∀ fault t, E fault t → Ends (handle fault) t Q E') :
    Ends (tryCatch e handle) s Q E' := by
  constructor
  · intro a s' hY
    rcases yields_tryCatch_iff.mp hY with hDone | ⟨fault, t, hFails, hDone⟩
    · exact hTry.1 a s' hDone
    · exact (hHandle fault t (hTry.2 fault t hFails)).1 a s' hDone
  · intro other s' hFails
    rcases fails_tryCatch_iff.mp hFails with ⟨fault, t, hFirst, hThen⟩
    exact (hHandle fault t (hTry.2 fault t hFirst)).2 other s' hThen

theorem forM {P : σ → Prop} {xs : List α} {h : α → ExceptT ε (StateM σ) Unit} (hStart : P s)
    (hTurn : ∀ t, ∀ x ∈ xs, P t → Ends (h x) t (fun _ => P) E) :
    Ends (xs.forM h) s (fun _ => P) E := by
  induction xs generalizing s with
  | nil => exact of_pure hStart
  | cons x xs ih =>
    refine bind (f := fun _ => xs.forM h) (hTurn s x mem_cons_self hStart) (fun _ t hMid => ?_)
    exact ih hMid (fun u y hM => hTurn u y (mem_cons_of_mem _ hM))

theorem keeps {P : σ → Prop} (hEnds : ∀ s, P s → Ends e s (fun _ => P) (fun _ => P)) :
    Keeps P e := by
  intro s hState
  rcases hRun : outcome e s with ⟨result, s'⟩
  cases result with
  | ok a => exact (hEnds s hState).1 a s' hRun
  | error fault => exact (hEnds s hState).2 fault s' hRun

theorem of_keeps {P : σ → Prop} (hKeeps : Keeps P e) (hState : P s) :
    Ends e s (fun _ => P) (fun _ => P) := by
  have hAfter := hKeeps s hState
  refine ⟨fun a s' hY => ?_, fun fault s' hFails => ?_⟩
  · rwa [hY] at hAfter
  · rwa [hFails] at hAfter

end Ends

end CircuitGraph
