import Mathlib
import RecedingHorizon.Check

/-!
What a check that succeeds has established. Every check is described by the condition under which it
succeeds, so that a sequence of checks turns into the conjunction of their conditions. A check of a
list that fails has found the first entry that is at fault.
-/

namespace RecedingHorizon

/-- The bound of a floor is kept, and zero is a number. -/
class LawfulScalar (α : Type) [Scalar α] : Prop where
  floorUpTo_le : ∀ (bound : Nat) (x : α), Scalar.floorUpTo bound x ≤ bound
  isFinite_zero : Scalar.isFinite (0 : α) = true

instance : LawfulScalar Float where
  floorUpTo_le := Binary64.floorUpTo_le
  isFinite_zero := by decide

/-! ### Sizes -/

theorem sizeSum_le (m n : Nat) : sizeSum m n ≤ m + n := Nat.mod_le _ _

theorem sizeSum_lt (m n : Nat) : sizeSum m n < 2 ^ 64 := Nat.mod_lt _ (by decide)

theorem sizeSum_of_lt {m n : Nat} (h : m + n < 2 ^ 64) : sizeSum m n = m + n := Nat.mod_eq_of_lt h

/-! ### Sequences of checks -/

section Except

variable {ε ε' β γ : Type}

theorem bind_eq_ok {x : Except ε β} {f : β → Except ε γ} {c : γ} :
    x >>= f = .ok c ↔ ∃ b, x = .ok b ∧ f b = .ok c := by
  cases x with
  | error e => exact ⟨nofun, nofun⟩
  | ok b =>
      refine ⟨fun h => ⟨b, rfl, h⟩, ?_⟩
      rintro ⟨_, heq, h⟩
      cases heq
      exact h

theorem bind_unit_eq_ok {x : Except ε Unit} {f : Unit → Except ε γ} {c : γ} :
    x >>= f = .ok c ↔ x = .ok () ∧ f () = .ok c := by
  rw [bind_eq_ok]
  exact ⟨fun ⟨(), h⟩ => h, fun h => ⟨(), h⟩⟩

theorem ok_bind (b : β) (f : β → Except ε γ) : (Except.ok b >>= f) = f b := rfl

theorem bind_ok (x : Except ε Unit) : (x >>= fun _ => .ok ()) = x := by
  cases x <;> rfl

theorem bind_eq_error {x : Except ε β} {f : β → Except ε γ} {e : ε} :
    x >>= f = .error e ↔ x = .error e ∨ ∃ b, x = .ok b ∧ f b = .error e := by
  cases x with
  | error e' => simp [bind, Except.bind]
  | ok b => simp [bind, Except.bind]

/-- A guard that fails leaves out what follows it. -/
theorem guard_eq_ok {bad : Prop} [Decidable bad] {e : ε} {f : β → Except ε γ} {rest : Except ε γ}
    {c : γ} : (if bad then .error e >>= f else rest) = .ok c ↔ ¬ bad ∧ rest = .ok c := by
  split
  next hbad => exact ⟨nofun, fun h => absurd hbad h.1⟩
  next hbad => exact (and_iff_right hbad).symm

theorem pure_eq_ok {b c : β} : (pure b : Except ε β) = .ok c ↔ b = c := by
  simp [pure, Except.pure]

theorem mapError_eq_ok {x : Except ε β} {f : ε → ε'} {b : β} :
    x.mapError f = .ok b ↔ x = .ok b := by
  cases x <;> simp [Except.mapError]

theorem forM_eq_ok {f : β → Except ε Unit} {xs : List β} :
    xs.forM f = .ok () ↔ ∀ x ∈ xs, f x = .ok () := by
  induction xs with
  | nil => simp [pure_eq_ok]
  | cons x xs ih =>
      rw [List.forall_mem_cons, ← ih]
      exact bind_unit_eq_ok

/-- A traversal has a result if every element has one, and the results have what those have. -/
theorem mapM_eq_ok {f : β → Except ε γ} {P : β → γ → Prop} {xs : List β}
    (h : ∀ x ∈ xs, ∃ y, P x y ∧ f x = .ok y) : ∃ ys, xs.mapM f = .ok ys ∧ List.Forall₂ P xs ys := by
  induction xs with
  | nil => exact ⟨[], rfl, .nil⟩
  | cons x xs ih =>
      rw [List.forall_mem_cons] at h
      obtain ⟨⟨y, hxy, hy⟩, hxs⟩ := h
      obtain ⟨ys, hys, hall⟩ := ih hxs
      refine ⟨y :: ys, ?_, .cons hxy hall⟩
      rw [List.mapM_cons, hy, hys]
      rfl

/-- A traversal collects the results of its elements, in their order. -/
theorem mapM_eq_ok_iff {f : β → Except ε γ} {xs : List β} {ys : List γ} :
    xs.mapM f = .ok ys ↔
      ys.length = xs.length ∧
        ∀ (i : Nat) x, xs[i]? = some x → ∃ y, ys[i]? = some y ∧ f x = .ok y := by
  induction xs generalizing ys with
  | nil =>
      rw [List.mapM_nil, pure_eq_ok]
      simp [eq_comm]
  | cons x xs ih =>
      simp only [List.mapM_cons, bind_eq_ok, pure_eq_ok, ih]
      constructor
      · rintro ⟨y, hy, ys, ⟨hlength, hys⟩, rfl⟩
        refine ⟨congrArg (· + 1) hlength, fun i => ?_⟩
        cases i with
        | zero =>
            rintro _ ⟨⟩
            exact ⟨y, rfl, hy⟩
        | succ i => exact hys i
      · rintro ⟨hlength, hys⟩
        cases ys with
        | nil => cases hlength
        | cons y ys =>
            obtain ⟨_, ⟨⟩, hy⟩ := hys 0 x rfl
            exact ⟨y, hy, ys, ⟨Nat.succ.inj hlength, fun i => hys (i + 1)⟩, rfl⟩

/-- A traversal fails with the error of the first element that fails. -/
theorem mapM_eq_error {f : β → Except ε γ} {xs : List β} {e : ε} :
    xs.mapM f = .error e ↔
      ∃ (i : Nat) (x : β), xs[i]? = some x ∧ f x = .error e ∧
        ∀ j < i, ∀ y, xs[j]? = some y → ∃ z, f y = .ok z := by
  induction xs with
  | nil => exact iff_of_false nofun nofun
  | cons x xs ih =>
      have hcons : (x :: xs).mapM f = .error e ↔
          f x = .error e ∨ ∃ y, f x = .ok y ∧ xs.mapM f = .error e := by
        simp only [List.mapM_cons, bind_eq_error]
        simp [pure, Except.pure]
      rw [hcons, ih]
      constructor
      · rintro (hx | ⟨y, hy, i, x', hx', he, hearlier⟩)
        · exact ⟨0, x, rfl, hx, nofun⟩
        · refine ⟨i + 1, x', hx', he, fun j hj => ?_⟩
          cases j with
          | zero =>
              rintro _ ⟨⟩
              exact ⟨y, hy⟩
          | succ j => exact hearlier j (Nat.lt_of_succ_lt_succ hj)
      · rintro ⟨i, x', hx', he, hearlier⟩
        cases i with
        | zero =>
            cases hx'
            exact .inl he
        | succ i =>
            obtain ⟨y, hy⟩ := hearlier 0 i.succ_pos x rfl
            exact .inr ⟨y, hy, i, x', hx', he, fun j hj => hearlier (j + 1) (Nat.succ_lt_succ hj)⟩

/-- What does not fail has a result. -/
theorem exists_ok_iff {x : Except ε β} {fault : Option ε}
    (hfault : ∀ e, x = .error e ↔ fault = some e) : (∃ y, x = .ok y) ↔ fault = none := by
  cases x with
  | ok y =>
      refine iff_of_true ⟨y, rfl⟩ (Option.eq_none_iff_forall_ne_some.2 fun e he => ?_)
      cases (hfault e).2 he
  | error e => exact iff_of_false nofun (by simp [(hfault e).1 rfl])

end Except

/-! ### The first of several faults -/

/-- The first entry of a vector that is not as it has to be, and its place. -/
structure IsFirstFault {α : Type} (P : α → Prop) (v : List α) (index : Nat) (x : α) : Prop where
  entry : v[index]? = some x
  fault : ¬ P x
  earlier : ∀ i < index, ∀ y, v[i]? = some y → P y

theorem IsFirstFault.unique {α : Type} {P : α → Prop} {v : List α} {i j : Nat} {x y : α}
    (hx : IsFirstFault P v i x) (hy : IsFirstFault P v j y) : i = j ∧ x = y := by
  rcases Nat.lt_trichotomy i j with hlt | rfl | hgt
  · exact absurd (hy.earlier i hlt x hx.entry) hx.fault
  · exact ⟨rfl, Option.some.inj (hx.entry.symm.trans hy.entry)⟩
  · exact absurd (hx.earlier j hgt y hy.entry) hy.fault

theorem IsFirstFault.mem {α : Type} {P : α → Prop} {v : List α} {i : Nat} {x : α}
    (hx : IsFirstFault P v i x) : x ∈ v := List.mem_of_getElem? hx.entry

theorem IsFirstFault.not_forall {α : Type} {P : α → Prop} {v : List α} {i : Nat} {x : α}
    (hx : IsFirstFault P v i x) : ¬ ∀ y ∈ v, P y := fun h => hx.fault (h x hx.mem)

section Searches

variable {β : Type} {p : β → Bool} {v : List β}

theorem findIdx?_not_eq_none : (v.findIdx? fun x => !p x) = none ↔ ∀ x ∈ v, p x = true := by
  simp [List.findIdx?_eq_none_iff]

theorem findIdx?_not_eq_some {index : Nat} :
    (v.findIdx? fun x => !p x) = some index ↔ ∃ x, IsFirstFault (p · = true) v index x := by
  rw [List.findIdx?_eq_some_iff_getElem]
  constructor
  · rintro ⟨hindex, hentry, hearlier⟩
    refine ⟨v[index], List.getElem?_eq_getElem hindex, by simpa using hentry, fun i hi y hy => ?_⟩
    obtain ⟨hlt, rfl⟩ := List.getElem?_eq_some_iff.1 hy
    simpa using hearlier i hi
  · rintro ⟨x, hfirst⟩
    obtain ⟨hindex, rfl⟩ := List.getElem?_eq_some_iff.1 hfirst.entry
    refine ⟨hindex, by simpa using hfirst.fault, fun i hi => ?_⟩
    simpa using hfirst.earlier i hi _ (List.getElem?_eq_getElem (hi.trans hindex))

theorem exists_isFirstFault (h : ¬ ∀ x ∈ v, p x = true) :
    ∃ index x, IsFirstFault (p · = true) v index x := by
  cases hfault : v.findIdx? fun x => !p x with
  | none => exact absurd (findIdx?_not_eq_none.1 hfault) h
  | some index => exact ⟨index, findIdx?_not_eq_some.1 hfault⟩

end Searches

/-! ### Single checks -/

section Scalars

variable {α : Type} {field : String}

@[simp] theorem checkLength_eq_ok {expected : Nat} {v : List α} :
    checkLength field expected v = .ok () ↔ v.length = expected := by
  rw [checkLength, checkDimension_eq_ok, eq_comm]

theorem defined_eq_ok {β : Type} {operation : String} {o : Option β} {value : β} :
    (defined operation o : Checked α β) = .ok value ↔ o = some value := by
  cases o <;> simp [defined]

theorem defined_eq_error {β : Type} {operation : String} {o : Option β} {e : ValidationError α} :
    (defined operation o : Checked α β) = .error e ↔ o = none ∧ .undefined operation = e := by
  cases o <;> simp [defined]

variable [Scalar α]

@[simp] theorem checkFinite_eq_ok {v : List α} :
    checkFinite field v = .ok () ↔ ∀ x ∈ v, Scalar.isFinite x = true := by
  unfold checkFinite
  split
  next index hfault =>
    obtain ⟨x, hfirst⟩ := findIdx?_not_eq_some.1 hfault
    exact iff_of_false nofun hfirst.not_forall
  next hnone => exact iff_of_true rfl (findIdx?_not_eq_none.1 hnone)

theorem exists_index_of_checkFinite {v : List α} {e : ValidationError α}
    (h : checkFinite field v = .error e) : ∃ index, e = .notFinite field index := by
  unfold checkFinite at h
  split at h
  · cases h
    exact ⟨_, rfl⟩
  · cases h

@[simp] theorem checkPositive_eq_ok {value : α} :
    checkPositive field value = .ok () ↔ Scalar.isFinite value = true ∧ ¬ value ≤ 0 := by
  simp [checkPositive]

end Scalars

section Weights

variable {α : Type} [Scalar α] [Spectral α] {field : String} {n : Nat} {m : Matrix α}

/-- A weight of the wrong size is refused for its number of rows or of columns. -/
theorem checkWeight_of_misfit (field : String) (hsize : ¬ (m.rows = n ∧ m.cols = m.rows)) :
    ∃ actual, checkWeight field n m = .error (.dimension field n actual) := by
  by_cases hrows : m.rows = n
  · have hcols : m.cols ≠ m.rows := fun hsquare => hsize ⟨hrows, hsquare⟩
    exact ⟨m.cols, by rw [checkWeight, if_neg (not_not.2 hrows), dif_pos hcols]⟩
  · exact ⟨m.rows, if_pos hrows⟩

theorem shape_of_checkWeight (h : checkWeight field n m = .ok ()) : m.rows = n ∧ m.cols = n := by
  by_cases hsize : m.rows = n ∧ m.cols = m.rows
  · exact ⟨hsize.1, hsize.2.trans hsize.1⟩
  · obtain ⟨actual, herror⟩ := checkWeight_of_misfit field hsize
    cases h.symm.trans herror

theorem isFinite_of_checkWeight (h : checkWeight field n m = .ok ()) :
    ∀ x ∈ m.entries, Scalar.isFinite x = true := by
  unfold checkWeight at h
  split at h
  · cases h
  split at h
  · cases h
  split at h
  next index hfault =>
    obtain ⟨_, -, h⟩ := bind_eq_ok.1 h
    cases h
  next hfault => exact findIdx?_not_eq_none.1 hfault

end Weights

end RecedingHorizon
