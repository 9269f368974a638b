import Mathlib
import RecedingHorizon.Json.Decode
import RecedingHorizon.Proofs.Json.Parse

/-!
Pairs of a writer and a reader of documents. Some values cannot be written, such as a double that
is no number, so a pair comes with the property that tells which ones can: what is written is read
as itself exactly for these, and nothing else is ever read.
-/

namespace RecedingHorizon.Json

variable {β γ : Type}

/-- The good values are those that can be written and those that can be read. -/
structure Codec (write : β → Json) (read? : Json → Option β) (Good : β → Prop) : Prop where
  closed : ∀ x, Closed (write x)
  read?_write : ∀ {x y}, read? (write x) = some y ↔ y = x ∧ Good x
  good_of_read? : ∀ {j x}, read? j = some x → Good x

/-! ### Lists -/

theorem mapM_map_eq_some {write : β → γ} {read? : γ → Option β} {Good : β → Prop}
    (h : ∀ {x y}, read? (write x) = some y ↔ y = x ∧ Good x) {xs ys : List β} :
    (xs.map write).mapM read? = some ys ↔ ys = xs ∧ ∀ x ∈ xs, Good x := by
  induction xs generalizing ys with
  | nil => simp [eq_comm]
  | cons x xs ih =>
      simp only [List.map_cons, List.mapM_cons, Option.bind_eq_bind, Option.bind_eq_some_iff, h, ih,
        Option.pure_def, Option.some.injEq, List.forall_mem_cons]
      constructor
      · rintro ⟨_, ⟨rfl, hx⟩, _, ⟨rfl, hxs⟩, rfl⟩
        exact ⟨rfl, hx, hxs⟩
      · rintro ⟨rfl, hx, hxs⟩
        exact ⟨x, ⟨rfl, hx⟩, xs, ⟨rfl, hxs⟩, rfl⟩

theorem forall_of_mapM {read? : γ → Option β} {Good : β → Prop}
    (h : ∀ {j x}, read? j = some x → Good x) {items : List γ} {xs : List β}
    (hitems : items.mapM read? = some xs) : ∀ x ∈ xs, Good x := by
  induction items generalizing xs with
  | nil =>
      cases hitems
      simp
  | cons item items ih =>
      simp only [List.mapM_cons, Option.bind_eq_bind, Option.bind_eq_some_iff, Option.pure_def,
        Option.some.injEq] at hitems
      obtain ⟨x, hx, xs, hxs, rfl⟩ := hitems
      exact List.forall_mem_cons.2 ⟨h hx, ih hxs⟩

namespace Codec

variable {write : β → Json} {read? : Json → Option β} {Good : β → Prop}

theorem list (h : Codec write read? Good) :
    Codec (ofList write) (toList? read?) fun xs => ∀ x ∈ xs, Good x where
  closed xs := .array (List.forall_mem_map.2 fun x _ => h.closed x)
  read?_write := mapM_map_eq_some h.read?_write
  good_of_read? {j xs} hj := by
    cases j with
    | array items => exact forall_of_mapM h.good_of_read? hj
    | _ => simp [toList?] at hj

end Codec

/-! ### Sizes, doubles and strings -/

theorem codec_size : Codec ofNat toSize? (· < Numeral.sizeBound) where
  closed _ := .number _
  read?_write {n m} := by
    simp [ofNat, toSize?, Numeral.ofNat, Numeral.toSize?, eq_comm, and_comm]
  good_of_read? {j n} hj := by
    cases j with
    | number literal =>
        simp only [toSize?, Numeral.toSize?, Option.ite_none_right_eq_some, Option.some.injEq] at hj
        obtain ⟨⟨-, -, -, hn⟩, rfl⟩ := hj
        exact hn
    | _ => simp [toSize?] at hj

/-- A double that is no number is written as null, and null is not read as a double. -/
theorem codec_float : Codec ofFloat toFloat? (fun x => x.isFinite = true) where
  closed x := by
    simp only [ofFloat]
    split
    · exact .number _
    · exact .null
  read?_write {x y} := by
    by_cases hfinite : x.isFinite = true
    · obtain ⟨n, hn, hx⟩ := Numeral.toFloat?_ofFloat? hfinite
      simp [ofFloat, hn, toFloat?, hx, hfinite, eq_comm]
    · simp [ofFloat, Numeral.ofFloat?_eq_none hfinite, toFloat?, hfinite]
  good_of_read? {j x} hj := by
    cases j with
    | number literal => exact Numeral.isFinite_of_toFloat? hj
    | _ => simp [toFloat?] at hj

theorem ofNat_ne_null (n : Nat) : ofNat n ≠ .null := by
  intro h
  cases h

theorem record_ne_null (members : List (String × Json)) : record members ≠ .null := by
  intro h
  cases h

theorem closed_encode (text : String) : (Quoted.encode text).Closed := Quoted.scan_encode text

theorem codec_string : Codec ofString toString? fun _ => True where
  closed text := .string (closed_encode text)
  read?_write {x y} := by simp [ofString, toString?, Quoted.decode?_encode, eq_comm]
  good_of_read? _ := trivial

/-! ### Fields that may be missing -/

namespace Codec

variable {write : β → Json} {read? : Json → Option β} {Good : β → Prop}

/-- Reading goes on after a field that was written if its value is good. -/
theorem bind_required (h : Codec write read? Good) {x : β} {next : β → Option γ} {result : γ} :
    (required read? (some (write x))).bind next = some result ↔ Good x ∧ next x = some result := by
  change (read? (write x)).bind next = some result ↔ _
  simp only [Option.bind_eq_some_iff, h.read?_write, and_assoc, exists_eq_left]

/-- Null stands for no value, so no value may be written as null. -/
theorem bind_optional (h : Codec write read? Good) (hnull : ∀ x, write x ≠ .null)
    {o : Option β} {next : Option β → Option γ} {result : γ} :
    (Json.optional read? (some (ofOption write o))).bind next = some result ↔
      (∀ x ∈ o, Good x) ∧ next o = some result := by
  cases o with
  | none => simp [ofOption, Json.optional]
  | some x =>
      have hread : Json.optional read? (some (write x)) = (read? (write x)).map some := by
        cases hx : write x with
        | null => exact absurd hx (hnull x)
        | _ => rfl
      have hgood : (∀ y ∈ some x, Good y) ↔ Good x := by simp
      have hrequired :
          (required read? (some (write x))).bind (fun y => next (some y)) = some result ↔
            Good x ∧ next (some x) = some result := h.bind_required
      rw [hgood, ← hrequired]
      change ((Json.optional read? (some (write x))).bind next = _) ↔ (read? (write x)).bind _ = _
      rw [hread, Option.bind_map]
      rfl

theorem good_of_required (h : Codec write read? Good) {field : Option Json} {x : β}
    (hfield : required read? field = some x) : Good x := by
  obtain ⟨j, -, hj⟩ := Option.bind_eq_some_iff.1 hfield
  exact h.good_of_read? hj

theorem good_of_optional (h : Codec write read? Good) {field : Option Json} {o : Option β}
    (hfield : Json.optional read? field = some o) : ∀ x ∈ o, Good x := by
  unfold Json.optional at hfield
  split at hfield
  · cases hfield
    simp
  · cases hfield
    simp
  · obtain ⟨x, hx, rfl⟩ := Option.map_eq_some_iff.1 hfield
    simpa using h.good_of_read? hx

theorem closed_ofOption (h : Codec write read? Good) (o : Option β) : Closed (ofOption write o) := by
  cases o with
  | none => exact .null
  | some x => exact h.closed x

end Codec

/-! ### Records -/

/-- The members of a record as they are written. -/
def written (members : List (String × Json)) : List (Quoted × Json) :=
  members.map fun (name, value) => (Quoted.encode name, value)

theorem record_eq (members : List (String × Json)) : record members = .object (written members) :=
  rfl

theorem written_cons (member : String × Json) (members : List (String × Json)) :
    written (member :: members) = (Quoted.encode member.1, member.2) :: written members := rfl

theorem closed_record {members : List (String × Json)}
    (h : ∀ member ∈ members, Closed member.2) : Closed (record members) :=
  .object (List.forall_mem_map.2 fun _ _ => closed_encode _) (List.forall_mem_map.2 h)

theorem decodeNames_written (members : List (String × Json)) :
    decodeNames (written members) = some members := by
  induction members with
  | nil => rfl
  | cons member members ih =>
      simp only [decodeNames] at ih
      simp [decodeNames, written_cons, Quoted.decode?_encode, ih]

/-- No member is dropped for a name that none of them has. -/
theorem filter_written {members : List (String × Json)} {name : String}
    (h : ∀ member ∈ members, member.1 ≠ name) :
    (written members).filter (fun member => Quoted.decode? member.1 ≠ name) = written members := by
  rw [List.filter_eq_self]
  intro _ hwritten
  obtain ⟨member, hmember, rfl⟩ := List.mem_map.1 hwritten
  simp [Quoted.decode?_encode, h member hmember]

theorem field?_of_mem {members : List (String × Json)} (hnames : (members.map Prod.fst).Nodup)
    {member : String × Json} (hmember : member ∈ members) :
    field? members member.1 = some (some member.2) := by
  -- a name that occurs once finds one member, which is what a field needs
  have hfilter : members.filter (fun other => other.1 = member.1) = [member] := by
    induction members with
    | nil => cases hmember
    | cons first members ih =>
        rw [List.map_cons, List.nodup_cons] at hnames
        rcases List.mem_cons.1 hmember with rfl | hlater
        · have hothers : members.filter (fun other => other.1 = member.1) = [] := by
            rw [List.filter_eq_nil_iff]
            intro other hother heq
            exact hnames.1 (List.mem_map.2 ⟨other, hother, by simpa using heq⟩)
          simp [hothers]
        · have hfirst : ¬ first.1 = member.1 := fun heq =>
            hnames.1 (heq ▸ List.mem_map_of_mem hlater)
          simp [hfirst, ih hnames.2 hlater]
  rw [field?, hfilter]

theorem fields?_record {names : List String} {members : List (String × Json)}
    (hmembers : members.map Prod.fst = names) (hnames : names.Nodup) :
    fields? names (record members) = some (members.map fun member => some member.2) := by
  subst hmembers
  have hfields (part : List (String × Json)) (hpart : part ⊆ members) :
      (part.map Prod.fst).mapM (field? members) = some (part.map fun member => some member.2) := by
    induction part with
    | nil => rfl
    | cons member part ih =>
        rw [List.cons_subset] at hpart
        simp [field?_of_mem hnames hpart.1, ih hpart.2]
  simp only [record_eq, fields?, decodeNames_written]
  exact hfields members (List.Subset.refl _)

end RecedingHorizon.Json
