import Mathlib
import RecedingHorizon.Problem.Form
import RecedingHorizon.Proofs.Json.Codec
import RecedingHorizon.Proofs.Problem.Content

/-!
The forms of the parts of a problem read back. Every part is written and read by a pair over the
pair for its scalars: it comes back if its scalars can be written and its sizes are words.
-/

namespace RecedingHorizon

open Json
open Json.Numeral (sizeBound)

variable {α : Type} {real : α → Json} {real? : Json → Option α} {Good : α → Prop}

theorem vectorForm_ne_null (real : α → Json) (v : List α) : vectorForm real v ≠ .null := by
  intro h
  cases h

theorem codec_vector (h : Codec real real? Good) :
    Codec (vectorForm real) (vectorOfForm? real?)
      fun v => (∀ x ∈ v, Good x) ∧ v.length < sizeBound where
  closed v := .array (by simp [h.list.closed, codec_size.closed, Closed.null])
  read?_write {v w} := by
    simp only [vectorForm, vectorOfForm?, Option.bind_eq_bind, Option.bind_eq_some_iff,
      h.list.read?_write, codec_size.read?_write]
    constructor
    · rintro ⟨_, ⟨rfl, hv⟩, _, ⟨rfl, hlength⟩, heq⟩
      simp_all
    · rintro ⟨rfl, hv, hlength⟩
      exact ⟨w, ⟨rfl, hv⟩, w.length, ⟨rfl, hlength⟩, if_pos rfl⟩
  good_of_read? {j v} hj := by
    unfold vectorOfForm? at hj
    split at hj
    · simp only [Option.bind_eq_bind, Option.bind_eq_some_iff] at hj
      obtain ⟨entries, hentries, length, hlength, heq⟩ := hj
      split at heq
      next hsame =>
        cases heq
        exact ⟨h.list.good_of_read? hentries, hsame ▸ codec_size.good_of_read? hlength⟩
      next => cases heq
    · cases hj

theorem Matrix.codec (h : Codec real real? Good) :
    Codec (Matrix.form real) (Matrix.ofForm? real?)
      fun m => (∀ x ∈ m.entries, Good x) ∧ m.rows < sizeBound ∧ m.cols < sizeBound where
  closed m := .array (by simp [h.list.closed, codec_size.closed])
  read?_write {m m'} := by
    simp only [form, ofForm?, Option.bind_eq_bind, Option.bind_eq_some_iff,
      h.list.read?_write, codec_size.read?_write]
    constructor
    · rintro ⟨_, ⟨rfl, hv⟩, _, ⟨rfl, hrows⟩, _, ⟨rfl, hcols⟩, heq⟩
      simp only [ofEntries?, dif_pos m.length_entries, Option.some.injEq] at heq
      exact ⟨heq.symm, hv, hrows, hcols⟩
    · rintro ⟨rfl, hv, hrows, hcols⟩
      exact ⟨_, ⟨rfl, hv⟩, _, ⟨rfl, hrows⟩, _, ⟨rfl, hcols⟩, dif_pos m'.length_entries⟩
  good_of_read? {j m} hj := by
    unfold ofForm? at hj
    split at hj
    · simp only [Option.bind_eq_bind, Option.bind_eq_some_iff] at hj
      obtain ⟨entries, hentries, rows, hrows, cols, hcols, heq⟩ := hj
      simp only [ofEntries?] at heq
      split at heq
      · cases heq
        exact ⟨h.list.good_of_read? hentries, codec_size.good_of_read? hrows,
          codec_size.good_of_read? hcols⟩
      · cases heq
    · cases hj

theorem Signal.codec : Codec Signal.form Signal.ofForm? fun s => s.index < sizeBound where
  closed s := by cases s <;> exact closed_record (by simp [codec_size.closed])
  read?_write {s t} := by
    cases s with
    | state index | input index =>
        simp only [form, ofForm?, record, List.map_cons, List.map_nil, Quoted.decode?_encode,
          Option.bind_eq_bind, Option.bind_some, Option.bind_eq_some_iff, codec_size.read?_write]
        constructor
        · rintro ⟨_, ⟨rfl, hindex⟩, heq⟩
          exact ⟨(Option.some.inj heq).symm, hindex⟩
        · rintro ⟨rfl, hindex⟩
          exact ⟨index, ⟨rfl, hindex⟩, rfl⟩
  good_of_read? {j s} hj := by
    unfold ofForm? at hj
    split at hj
    · simp only [Option.bind_eq_bind, Option.bind_eq_some_iff] at hj
      obtain ⟨name, -, index, hindex, heq⟩ := hj
      have hgood := codec_size.good_of_read? hindex
      split at heq
      · cases heq
        exact hgood
      · split at heq
        · cases heq
          exact hgood
        · cases heq
    · cases hj

theorem Residual.codec :
    Codec Residual.form Residual.ofForm? fun r => ∀ n ∈ r.sizes, n < sizeBound where
  closed r := closed_record (by simp [Signal.codec.closed, codec_size.closed_ofOption])
  read?_write {r s} := by
    rw [ofForm?, form, fields?_record (by rfl) (by decide)]
    simp only [List.map_cons, List.map_nil, Option.bind_eq_bind, Option.bind_some,
      Signal.codec.bind_required, codec_size.bind_optional ofNat_ne_null, Option.pure_def,
      Option.some.injEq]
    constructor
    · rintro ⟨hsignal, htarget, rfl⟩
      exact ⟨rfl, by simpa [sizes] using ⟨hsignal, htarget⟩⟩
    · rintro ⟨rfl, hsizes⟩
      simpa [sizes] using hsizes
  good_of_read? {j r} hj := by
    obtain ⟨fields, -, hj⟩ := Option.bind_eq_some_iff.1 hj
    split at hj
    · simp only [Option.bind_eq_bind, Option.bind_eq_some_iff] at hj
      obtain ⟨signal, hsignal, target, htarget, heq⟩ := hj
      cases heq
      have hsignal := Signal.codec.good_of_required hsignal
      have htarget := codec_size.good_of_optional htarget
      simpa [sizes] using ⟨hsignal, htarget⟩
    · cases hj

theorem CostMap.codec :
    Codec CostMap.form CostMap.ofForm? fun m => ∀ n ∈ m.sizes, n < sizeBound where
  closed m := closed_record (by simp [Residual.codec.list.closed])
  read?_write {m m'} := by
    rw [ofForm?, form, fields?_record (by rfl) (by decide)]
    simp only [List.map_cons, List.map_nil, Option.bind_eq_bind, Option.bind_some,
      Residual.codec.list.bind_required, Option.pure_def, Option.some.injEq]
    constructor
    · rintro ⟨hresiduals, rfl⟩
      exact ⟨rfl, List.forall_mem_flatMap.2 hresiduals⟩
    · rintro ⟨rfl, hsizes⟩
      exact ⟨List.forall_mem_flatMap.1 hsizes, rfl⟩
  good_of_read? {j m} hj := by
    obtain ⟨fields, -, hj⟩ := Option.bind_eq_some_iff.1 hj
    split at hj
    · simp only [Option.bind_eq_bind, Option.bind_eq_some_iff] at hj
      obtain ⟨residuals, hresiduals, heq⟩ := hj
      cases heq
      have hresiduals := Residual.codec.list.good_of_required hresiduals
      exact List.forall_mem_flatMap.2 hresiduals
    · cases hj

theorem Profile.codec (h : Codec real real? Good) :
    Codec (Profile.form real) (Profile.ofForm? real?)
      fun p => (∀ x ∈ p.scalars, Good x) ∧ ∀ n ∈ p.sizes, n < sizeBound := by
  have hgood (p : Profile α) : ((∀ x ∈ p.scalars, Good x) ∧ ∀ n ∈ p.sizes, n < sizeBound) ↔
      ∀ v ∈ p.segments, (∀ x ∈ v, Good x) ∧ v.length < sizeBound := by
    simp only [scalars, sizes, List.forall_mem_flatten, List.forall_mem_map]
    exact forall₂_and.symm
  simp only [hgood]
  exact {
    closed := fun p => closed_record (by simp [(codec_vector h).list.closed])
    read?_write := by
      intro p q
      rw [ofForm?, form, fields?_record (by rfl) (by decide)]
      simp only [List.map_cons, List.map_nil, Option.bind_eq_bind, Option.bind_some,
        (codec_vector h).list.bind_required, Option.pure_def, Option.some.injEq]
      rw [and_comm, eq_comm]
    good_of_read? := by
      intro j p hj
      obtain ⟨fields, -, hj⟩ := Option.bind_eq_some_iff.1 hj
      split at hj
      · simp only [Option.bind_eq_bind, Option.bind_eq_some_iff] at hj
        obtain ⟨segments, hsegments, heq⟩ := hj
        cases heq
        exact (codec_vector h).list.good_of_required hsegments
      · cases hj }

theorem Binding.codec (h : Codec real real? Good) :
    Codec (Binding.form real) (Binding.ofForm? real?)
      fun b => (∀ x ∈ b.profile.scalars, Good x) ∧ ∀ n ∈ b.sizes, n < sizeBound where
  closed b := closed_record (by simp [(Profile.codec h).closed, codec_size.closed])
  read?_write {b c} := by
    rw [ofForm?, form, fields?_record (by rfl) (by decide)]
    simp only [List.map_cons, List.map_nil, Option.bind_eq_bind, Option.bind_some,
      (Profile.codec h).bind_required, codec_size.bind_required, Option.pure_def, Option.some.injEq,
      sizes, List.forall_mem_cons]
    constructor
    · rintro ⟨⟨hscalars, hsizes⟩, hselector, rfl⟩
      exact ⟨rfl, hscalars, hselector, hsizes⟩
    · rintro ⟨rfl, hscalars, hselector, hsizes⟩
      exact ⟨⟨hscalars, hsizes⟩, hselector, rfl⟩
  good_of_read? {j b} hj := by
    obtain ⟨fields, -, hj⟩ := Option.bind_eq_some_iff.1 hj
    split at hj
    · simp only [Option.bind_eq_bind, Option.bind_eq_some_iff] at hj
      obtain ⟨profile, hprofile, selector, hselector, heq⟩ := hj
      cases heq
      obtain ⟨hscalars, hsizes⟩ := (Profile.codec h).good_of_required hprofile
      exact ⟨hscalars, List.forall_mem_cons.2 ⟨codec_size.good_of_required hselector, hsizes⟩⟩
    · cases hj

/-! ### Choices -/

/-- A choice is written by its name, if the table gives every value one name of its own. -/
theorem codec_choice {β : Type} [DecidableEq β] {choices : List (String × β)}
    (h : ∀ value, ∃ name, choices.find? (fun choice => choice.2 = value) = some (name, value) ∧
      choices.lookup name = some value) :
    Codec (choiceForm choices) (choice? choices) fun _ => True := by
  have hform (value : β) : ∃ name, choiceForm choices value = ofString name ∧
      choices.lookup name = some value := by
    obtain ⟨name, hname, hlookup⟩ := h value
    exact ⟨name, by simp [choiceForm, hname, ofOption], hlookup⟩
  exact {
    closed := by
      intro value
      obtain ⟨name, hname, -⟩ := hform value
      exact hname ▸ codec_string.closed name
    read?_write := by
      intro x y
      obtain ⟨name, hname, hlookup⟩ := hform x
      rw [hname]
      simp only [choice?, ofString, toString?, Quoted.decode?_encode, Option.bind_eq_bind,
        Option.bind_some, hlookup, Option.some.injEq, and_true]
      exact eq_comm
    good_of_read? := fun _ => trivial }

theorem QpSolver.codec : Codec (choiceForm QpSolver.names) (choice? QpSolver.names) fun _ => True :=
  codec_choice fun value => by cases value <;> exact ⟨_, rfl, rfl⟩

theorem HessianApproximation.codec :
    Codec (choiceForm HessianApproximation.names) (choice? HessianApproximation.names)
      fun _ => True :=
  codec_choice fun value => by cases value <;> exact ⟨_, rfl, rfl⟩

theorem NlpSolver.codec :
    Codec (choiceForm NlpSolver.names) (choice? NlpSolver.names) fun _ => True :=
  codec_choice fun value => by cases value <;> exact ⟨_, rfl, rfl⟩

theorem CostDiscretization.codec :
    Codec (choiceForm CostDiscretization.names) (choice? CostDiscretization.names) fun _ => True :=
  codec_choice fun value => by cases value <;> exact ⟨_, rfl, rfl⟩

theorem CostKind.codec :
    Codec (choiceForm CostKind.names) (choice? CostKind.names) fun _ => True :=
  codec_choice fun value => by cases value; exact ⟨_, rfl, rfl⟩

/-! ### The integrator -/

theorem isReadable_ofString (depth : Nat) (text : String) :
    isReadable depth (ofString text) = true := by
  simp [ofString, isReadable, Quoted.decode?_encode]

theorem isReadable_ofNat (depth : Nat) {n : Nat} (hn : n < sizeBound) :
    isReadable depth (ofNat n) = true := by
  simpa [ofNat, isReadable] using Numeral.isSome_toFloat?_ofNat hn

theorem isReadable_record {depth : Nat} {members : List (String × Json)}
    (h : ∀ member ∈ members, isReadable depth member.2 = true) :
    isReadable (depth + 1) (record members) = true := by
  rw [record, isReadable]
  induction members with
  | nil => rfl
  | cons member members ih =>
      rw [List.forall_mem_cons] at h
      simp [areReadableMembers, Quoted.decode?_encode, h.1, ih h.2]

/-- The type is taken out of the record, and the other members are read for it. -/
theorem Integrator.ofForm?_record (type : String) {rest : List (String × Json)}
    (hrest : ∀ member ∈ rest, member.1 ≠ "type") :
    ofForm? (record (("type", ofString type) :: rest)) =
      if isReadable deepest (record (("type", ofString type) :: rest)) = true then
        ofTyped? type (record rest)
      else none := by
  have htype : field? (("type", ofString type) :: rest) "type" = some (some (ofString type)) := by
    have hnone : rest.filter (fun member => member.1 = "type") = [] := by
      simpa [List.filter_eq_nil_iff] using hrest
    simp [field?, hnone]
  have hstring : toString? (ofString type) = some type := codec_string.read?_write.2 ⟨rfl, trivial⟩
  have hdecode := decodeNames_written (("type", ofString type) :: rest)
  rw [written_cons] at hdecode
  unfold ofForm?
  split
  · simp only [record_eq, written_cons, hdecode, Option.bind_eq_bind, Option.bind_some, htype, hstring]
    rw [List.filter_cons_of_neg (by simp [Quoted.decode?_encode]), filter_written hrest]
  · rfl

theorem Integrator.ofTyped?_record {stages steps : Nat} {i : Integrator} :
    ofTyped? "IRK" (record [("stages", ofNat stages), ("steps", ofNat steps)]) = some i ↔
      stages < sizeBound ∧ steps < sizeBound ∧ implicitRungeKutta stages steps = i := by
  have hfields : fields? ["stages", "steps"]
      (record [("stages", ofNat stages), ("steps", ofNat steps)]) =
        some [some (ofNat stages), some (ofNat steps)] :=
    fields?_record rfl (by decide)
  simp only [ofTyped?, hfields, Option.bind_eq_bind, Option.bind_some,
    codec_size.bind_required, Option.pure_def, Option.some.injEq, if_neg (by decide : ¬ "IRK" = "DISCRETE"),
    if_true]

theorem Integrator.lt_of_ofTyped? {type : String} {rest : Json} {i : Integrator}
    (h : ofTyped? type rest = some i) : ∀ n ∈ i.sizes, n < sizeBound := by
  unfold ofTyped? at h
  split at h
  · split at h
    · cases h
    · cases h
      simp [sizes]
  · split at h
    · obtain ⟨fields, -, h⟩ := Option.bind_eq_some_iff.1 h
      split at h
      · simp only [Option.bind_eq_bind, Option.bind_eq_some_iff] at h
        obtain ⟨stages, hstages, steps, hsteps, heq⟩ := h
        cases heq
        simp [sizes, codec_size.good_of_required hstages, codec_size.good_of_required hsteps]
      · cases h
    · cases h

theorem Integrator.codec :
    Codec Integrator.form Integrator.ofForm? fun i => ∀ n ∈ i.sizes, n < sizeBound where
  closed i := by
    cases i with
    | discrete => exact closed_record (by simp [codec_string.closed])
    | implicitRungeKutta stages steps =>
        exact closed_record (by simp [codec_string.closed, codec_size.closed])
  read?_write {i k} := by
    cases i with
    | discrete =>
        have hreadable : isReadable deepest (record [("type", ofString "DISCRETE")]) = true :=
          isReadable_record (by simp [isReadable_ofString])
        rw [form, ofForm?_record "DISCRETE" (by simp), if_pos hreadable]
        simp [ofTyped?, record, sizes, eq_comm]
    | implicitRungeKutta stages steps =>
        rw [form, ofForm?_record "IRK" (by simp), Option.ite_none_right_eq_some, ofTyped?_record]
        constructor
        · rintro ⟨-, hstages, hsteps, rfl⟩
          exact ⟨rfl, by simp [sizes, hstages, hsteps]⟩
        · rintro ⟨rfl, hsizes⟩
          have hstages : stages < sizeBound := hsizes stages (by simp [sizes])
          have hsteps : steps < sizeBound := hsizes steps (by simp [sizes])
          refine ⟨isReadable_record ?_, hstages, hsteps, rfl⟩
          simp [isReadable_ofString, isReadable_ofNat, hstages, hsteps]
  good_of_read? {j i} hj := by
    unfold ofForm? at hj
    split at hj
    -- in an object and in a list alike, the type decides how the rest is read
    · split at hj
      · simp only [Option.bind_eq_bind, Option.bind_eq_some_iff] at hj
        obtain ⟨names, -, value, -, type, -, h⟩ := hj
        exact lt_of_ofTyped? h
      · simp only [Option.bind_eq_bind, Option.bind_eq_some_iff] at hj
        obtain ⟨type, -, h⟩ := hj
        exact lt_of_ofTyped? h
      · cases hj
    · cases hj

/-! ### The blocks of a problem -/

theorem Dimensions.codec :
    Codec Dimensions.form Dimensions.ofForm? fun d => ∀ n ∈ d.sizes, n < sizeBound where
  closed d := closed_record (by simp [codec_size.closed])
  read?_write {d e} := by
    rw [ofForm?, form, fields?_record (by rfl) (by decide)]
    simp only [List.map_cons, List.map_nil, Option.bind_eq_bind, Option.bind_some,
      codec_size.bind_required, Option.pure_def, Option.some.injEq, sizes, List.forall_mem_cons]
    constructor
    · rintro ⟨hx, hu, hp, hy, hye, hbu, hn, rfl⟩
      exact ⟨rfl, hx, hu, hp, hy, hye, hbu, hn, by simp⟩
    · rintro ⟨rfl, hx, hu, hp, hy, hye, hbu, hn, -⟩
      exact ⟨hx, hu, hp, hy, hye, hbu, hn, rfl⟩
  good_of_read? {j d} hj := by
    obtain ⟨fields, -, hj⟩ := Option.bind_eq_some_iff.1 hj
    split at hj
    · simp only [Option.bind_eq_bind, Option.bind_eq_some_iff] at hj
      obtain ⟨_, hx, _, hu, _, hp, _, hy, _, hye, _, hbu, _, hn, heq⟩ := hj
      cases heq
      simp only [sizes, List.forall_mem_cons]
      exact ⟨codec_size.good_of_required hx, codec_size.good_of_required hu,
        codec_size.good_of_required hp, codec_size.good_of_required hy,
        codec_size.good_of_required hye, codec_size.good_of_required hbu,
        codec_size.good_of_required hn, by simp⟩
    · cases hj

theorem SolverOptions.codec (h : Codec real real? Good) :
    Codec (SolverOptions.form real) (SolverOptions.ofForm? real?)
      fun o => (∀ x ∈ o.scalars, Good x) ∧ ∀ n ∈ o.sizes, n < sizeBound where
  closed o := closed_record (by
    simp [h.closed, codec_size.closed, Integrator.codec.closed, QpSolver.codec.closed,
      HessianApproximation.codec.closed, NlpSolver.codec.closed, CostDiscretization.codec.closed])
  read?_write {o o'} := by
    rw [ofForm?, form, fields?_record (by rfl) (by decide)]
    simp only [List.map_cons, List.map_nil, Option.bind_eq_bind, Option.bind_some,
      codec_size.bind_required, h.bind_required, Integrator.codec.bind_required,
      QpSolver.codec.bind_required, HessianApproximation.codec.bind_required,
      NlpSolver.codec.bind_required, CostDiscretization.codec.bind_required, Option.pure_def,
      Option.some.injEq, true_and]
    simp only [scalars, sizes, List.forall_mem_append, List.forall_mem_cons]
    constructor
    · rintro ⟨hn, htf, hintegrator, hcond, hlm, hiter, htol, rfl⟩
      exact ⟨rfl, ⟨htf, hlm, htol, by simp⟩, ⟨hn, hcond, hiter, by simp⟩, hintegrator⟩
    · rintro ⟨rfl, ⟨htf, hlm, htol, -⟩, ⟨hn, hcond, hiter, -⟩, hintegrator⟩
      exact ⟨hn, htf, hintegrator, hcond, hlm, hiter, htol, rfl⟩
  good_of_read? {j o} hj := by
    obtain ⟨fields, -, hj⟩ := Option.bind_eq_some_iff.1 hj
    split at hj
    · simp only [Option.bind_eq_bind, Option.bind_eq_some_iff] at hj
      obtain ⟨_, hn, _, htf, _, hintegrator, _, -, _, hcond, _, -, _, hlm, _, -, _, hiter, _, htol,
        _, -, heq⟩ := hj
      cases heq
      simp only [scalars, sizes, List.forall_mem_append, List.forall_mem_cons]
      exact ⟨⟨h.good_of_required htf, h.good_of_required hlm, h.good_of_required htol, by simp⟩,
        ⟨codec_size.good_of_required hn, codec_size.good_of_required hcond,
          codec_size.good_of_required hiter, by simp⟩, Integrator.codec.good_of_required hintegrator⟩
    · cases hj

theorem Cost.codec (h : Codec real real? Good) :
    Codec (Cost.form real) (Cost.ofForm? real?)
      fun c => (∀ x ∈ c.scalars, Good x) ∧ ∀ n ∈ c.sizes, n < sizeBound where
  closed c := closed_record (by
    simp [CostKind.codec.closed, CostMap.codec.closed, (Matrix.codec h).closed,
      (codec_vector h).closed])
  read?_write {c d} := by
    rw [ofForm?, form, fields?_record (by rfl) (by decide)]
    simp only [List.map_cons, List.map_nil, Option.bind_eq_bind, Option.bind_some,
      CostKind.codec.bind_required, CostMap.codec.bind_required, (Matrix.codec h).bind_required,
      (codec_vector h).bind_required, Option.pure_def, Option.some.injEq, true_and]
    simp only [scalars, sizes, List.forall_mem_append, List.forall_mem_cons]
    constructor
    · rintro ⟨hmap, hmape, ⟨hw, hrows, hcols⟩, ⟨hwe, hrowse, hcolse⟩, ⟨hyref, hy⟩, ⟨hyrefe, hye⟩, rfl⟩
      exact ⟨rfl, ⟨⟨⟨hw, hwe⟩, hyref⟩, hyrefe⟩, ⟨hmap, hmape⟩, hrows, hcols, hrowse, hcolse, hy, hye,
        by simp⟩
    · rintro ⟨rfl, ⟨⟨⟨hw, hwe⟩, hyref⟩, hyrefe⟩, ⟨hmap, hmape⟩, hrows, hcols, hrowse, hcolse, hy, hye,
        -⟩
      exact ⟨hmap, hmape, ⟨hw, hrows, hcols⟩, ⟨hwe, hrowse, hcolse⟩, ⟨hyref, hy⟩, ⟨hyrefe, hye⟩, rfl⟩
  good_of_read? {j c} hj := by
    obtain ⟨fields, -, hj⟩ := Option.bind_eq_some_iff.1 hj
    split at hj
    · simp only [Option.bind_eq_bind, Option.bind_eq_some_iff] at hj
      obtain ⟨_, -, _, -, _, hmap, _, hmape, _, hw, _, hwe, _, hyref, _, hyrefe, heq⟩ := hj
      cases heq
      obtain ⟨hw, hrows, hcols⟩ := (Matrix.codec h).good_of_required hw
      obtain ⟨hwe, hrowse, hcolse⟩ := (Matrix.codec h).good_of_required hwe
      obtain ⟨hyref, hy⟩ := (codec_vector h).good_of_required hyref
      obtain ⟨hyrefe, hye⟩ := (codec_vector h).good_of_required hyrefe
      simp only [scalars, sizes, List.forall_mem_append, List.forall_mem_cons]
      exact ⟨⟨⟨⟨hw, hwe⟩, hyref⟩, hyrefe⟩,
        ⟨CostMap.codec.good_of_required hmap, CostMap.codec.good_of_required hmape⟩, hrows, hcols,
        hrowse, hcolse, hy, hye, by simp⟩
    · cases hj

theorem Constraints.codec (h : Codec real real? Good) :
    Codec (Constraints.form real) (Constraints.ofForm? real?)
      fun c => (∀ x ∈ c.scalars, Good x) ∧ ∀ n ∈ c.sizes, n < sizeBound where
  closed c := closed_record (by
    simp [codec_size.list.closed, (codec_vector h).closed, (codec_vector h).closed_ofOption])
  read?_write {c d} := by
    rw [ofForm?, form, fields?_record (by rfl) (by decide)]
    simp only [List.map_cons, List.map_nil, Option.bind_eq_bind, Option.bind_some,
      codec_size.list.bind_required, (codec_vector h).bind_required,
      (codec_vector h).bind_optional (vectorForm_ne_null real), forall₂_and, Option.pure_def,
      Option.some.injEq]
    simp only [scalars, sizes, List.forall_mem_append, List.forall_mem_cons,
      forall_mem_getD, Option.mem_toList]
    constructor
    · rintro ⟨⟨hlower, hl⟩, ⟨hupper, hu⟩, hindices, ⟨hx, hn⟩, rfl⟩
      exact ⟨rfl, ⟨⟨hlower, hupper⟩, hx⟩, ⟨⟨hl, hu, by simp⟩, hindices⟩, Option.forall_mem_map.2 hn⟩
    · rintro ⟨rfl, ⟨⟨hlower, hupper⟩, hx⟩, ⟨⟨hl, hu, -⟩, hindices⟩, hn⟩
      exact ⟨⟨hlower, hl⟩, ⟨hupper, hu⟩, hindices, ⟨hx, Option.forall_mem_map.1 hn⟩, rfl⟩
  good_of_read? {j c} hj := by
    obtain ⟨fields, -, hj⟩ := Option.bind_eq_some_iff.1 hj
    split at hj
    · simp only [Option.bind_eq_bind, Option.bind_eq_some_iff] at hj
      obtain ⟨_, hlower, _, hupper, _, hindices, state, hstate, heq⟩ := hj
      cases heq
      obtain ⟨hlower, hl⟩ := (codec_vector h).good_of_required hlower
      obtain ⟨hupper, hu⟩ := (codec_vector h).good_of_required hupper
      have hindices := codec_size.list.good_of_required hindices
      obtain ⟨hx, hn⟩ := forall₂_and.1 ((codec_vector h).good_of_optional hstate)
      simp only [scalars, sizes, List.forall_mem_append, List.forall_mem_cons,
        forall_mem_getD, Option.mem_toList]
      exact ⟨⟨⟨hlower, hupper⟩, hx⟩, ⟨⟨hl, hu, by simp⟩, hindices⟩, Option.forall_mem_map.2 hn⟩
    · cases hj

theorem Problem.codec (h : Codec real real? Good) :
    Codec (Problem.form real) (Problem.ofForm? real?)
      fun p => (∀ x ∈ p.scalars, Good x) ∧ ∀ n ∈ p.sizes, n < sizeBound where
  closed p := closed_record (by
    simp [codec_string.closed, Dimensions.codec.closed, (Cost.codec h).closed,
      (Constraints.codec h).closed, (codec_vector h).closed, (Binding.codec h).closed_ofOption,
      (SolverOptions.codec h).closed])
  read?_write {p q} := by
    rw [ofForm?, form, fields?_record (by rfl) (by decide)]
    simp only [List.map_cons, List.map_nil, Option.bind_eq_bind, Option.bind_some,
      codec_string.bind_required, Dimensions.codec.bind_required, (Cost.codec h).bind_required,
      (Constraints.codec h).bind_required, (codec_vector h).bind_required,
      (Binding.codec h).bind_optional fun _ => record_ne_null _, (SolverOptions.codec h).bind_required,
      forall₂_and, Option.pure_def, Option.some.injEq, true_and]
    simp only [scalars, sizes, List.forall_mem_append, List.forall_mem_singleton, forall_mem_getD,
      Option.forall_mem_map]
    constructor
    · rintro ⟨hd, ⟨hc, hc'⟩, ⟨hk, hk'⟩, ⟨hp, hp'⟩, ⟨hr, hr'⟩, ⟨ho, ho'⟩, rfl⟩
      exact ⟨rfl, ⟨⟨⟨⟨hc, hk⟩, hp⟩, hr⟩, ho⟩, ⟨⟨⟨⟨hd, hc'⟩, hk'⟩, hp'⟩, hr'⟩, ho'⟩
    · rintro ⟨rfl, ⟨⟨⟨⟨hc, hk⟩, hp⟩, hr⟩, ho⟩, ⟨⟨⟨⟨hd, hc'⟩, hk'⟩, hp'⟩, hr'⟩, ho'⟩
      exact ⟨hd, ⟨hc, hc'⟩, ⟨hk, hk'⟩, ⟨hp, hp'⟩, ⟨hr, hr'⟩, ⟨ho, ho'⟩, rfl⟩
  good_of_read? {j p} hj := by
    obtain ⟨fields, -, hj⟩ := Option.bind_eq_some_iff.1 hj
    split at hj
    · simp only [Option.bind_eq_bind, Option.bind_eq_some_iff] at hj
      obtain ⟨_, -, _, hd, _, hc, _, hk, _, hp, reference, hr, _, ho, heq⟩ := hj
      cases heq
      have hd := Dimensions.codec.good_of_required hd
      obtain ⟨hc, hc'⟩ := (Cost.codec h).good_of_required hc
      obtain ⟨hk, hk'⟩ := (Constraints.codec h).good_of_required hk
      obtain ⟨hp, hp'⟩ := (codec_vector h).good_of_required hp
      obtain ⟨hr, hr'⟩ := forall₂_and.1 ((Binding.codec h).good_of_optional hr)
      obtain ⟨ho, ho'⟩ := (SolverOptions.codec h).good_of_required ho
      simp only [scalars, sizes, List.forall_mem_append, List.forall_mem_singleton, forall_mem_getD,
        Option.forall_mem_map]
      exact ⟨⟨⟨⟨⟨hc, hk⟩, hp⟩, hr⟩, ho⟩, ⟨⟨⟨⟨hd, hc'⟩, hk'⟩, hp'⟩, hr'⟩, ho'⟩
    · cases hj

end RecedingHorizon
