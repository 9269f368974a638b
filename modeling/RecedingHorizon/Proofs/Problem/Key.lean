import Mathlib
import RecedingHorizon.Cache
import RecedingHorizon.Proofs.Problem.Form

/-!
Keys tell problems apart. Equal forms come from equal parts as far as the scalars in them are told
apart by how they are written, which the finite doubles are. The key of a problem then fixes all of
it but the initial state and the nominal parameters.
-/

namespace RecedingHorizon

open Json

variable {α β : Type}

namespace Json

/-- Values of the two lists that are written alike are the same. -/
def Separates (write : β → Json) (xs ys : List β) : Prop :=
  ∀ x ∈ xs, ∀ y ∈ ys, write x = write y → x = y

theorem Separates.mono {write : β → Json} {xs ys xs' ys' : List β} (h : Separates write xs ys)
    (hxs : xs' ⊆ xs) (hys : ys' ⊆ ys) : Separates write xs' ys' :=
  fun x hx y hy => h x (hxs hx) y (hys hy)

theorem Separates.of_append {write : β → Json} {xs ys xs' ys' : List β}
    (h : Separates write (xs ++ xs') (ys ++ ys')) : Separates write xs ys ∧ Separates write xs' ys' :=
  ⟨h.mono (List.subset_append_left xs xs') (List.subset_append_left ys ys'),
    h.mono (List.subset_append_right xs xs') (List.subset_append_right ys ys')⟩

theorem Codec.eq_of_write_eq {write : β → Json} {read? : Json → Option β} {Good : β → Prop}
    (h : Codec write read? Good) {x y : β} (hx : Good x) (heq : write x = write y) : x = y := by
  have hread : read? (write x) = some x := h.read?_write.2 ⟨rfl, hx⟩
  rw [heq] at hread
  exact (h.read?_write.1 hread).1

theorem ofNat_inj {n m : Nat} : ofNat n = ofNat m ↔ n = m := by
  simp [ofNat, Numeral.ofNat]

theorem record_inj {members members' : List (String × Json)} :
    record members = record members' ↔ members = members' := by
  rw [record_eq, record_eq, Json.object.injEq]
  refine List.map_inj_right fun member member' h => ?_
  obtain ⟨hname, hvalue⟩ := Prod.mk.inj h
  have hdecode := congrArg Quoted.decode? hname
  rw [Quoted.decode?_encode, Quoted.decode?_encode, Option.some.injEq] at hdecode
  exact Prod.ext hdecode hvalue

theorem ofList_inj {write : β → Json} {xs ys : List β} (hwrite : Separates write xs ys)
    (h : ofList write xs = ofList write ys) : xs = ys := by
  rw [ofList, ofList, Json.array.injEq] at h
  induction xs generalizing ys with
  | nil => exact (List.map_eq_nil_iff.1 h.symm).symm
  | cons x xs ih =>
      cases ys with
      | nil => cases h
      | cons y ys =>
          obtain ⟨hhead, htail⟩ := List.cons.inj h
          have heq := hwrite x List.mem_cons_self y List.mem_cons_self hhead
          have hrest := ih (hwrite.mono (List.subset_cons_self x xs) (List.subset_cons_self y ys)) htail
          rw [heq, hrest]

theorem ofOption_inj {write : β → Json} {o o' : Option β} (hnull : ∀ x, write x ≠ .null)
    (hwrite : Separates write o.toList o'.toList) (h : ofOption write o = ofOption write o') :
    o = o' := by
  cases o with
  | none =>
      cases o' with
      | none => rfl
      | some y => exact absurd h.symm (hnull y)
  | some x =>
      cases o' with
      | none => exact absurd h (hnull x)
      | some y => rw [hwrite x (by simp) y (by simp) h]

end Json

attribute [ext] Matrix Residual CostMap Profile Binding Dimensions SolverOptions Cost

section Parts

variable {real : α → Json}

theorem vectorForm_inj {v w : List α} (hreal : Separates real v w)
    (h : vectorForm real v = vectorForm real w) : v = w := by
  simp only [vectorForm, Json.array.injEq, List.cons.injEq] at h
  exact ofList_inj hreal h.1

theorem Matrix.form_inj {m m' : Matrix α} (hreal : Separates real m.entries m'.entries)
    (h : m.form real = m'.form real) : m = m' := by
  simp only [form, Json.array.injEq, List.cons.injEq, ofNat_inj] at h
  obtain ⟨hentries, hrows, hcols, -⟩ := h
  exact Matrix.ext hrows hcols (ofList_inj hreal hentries)

theorem Signal.form_inj {s t : Signal} (h : s.form = t.form) : s = t := by
  cases s <;> cases t <;> simp_all [form, record_inj, ofNat_inj]

theorem Residual.form_inj {r r' : Residual} (h : r.form = r'.form) : r = r' := by
  simp only [form, record_inj, List.cons.injEq, Prod.mk.injEq, true_and, and_true] at h
  obtain ⟨hsignal, htarget⟩ := h
  have htarget := ofOption_inj ofNat_ne_null (fun _ _ _ _ => ofNat_inj.1) htarget
  exact Residual.ext (Signal.form_inj hsignal) htarget

theorem CostMap.form_inj {m m' : CostMap} (h : m.form = m'.form) : m = m' := by
  simp only [form, record_inj, List.cons.injEq, Prod.mk.injEq, true_and, and_true] at h
  exact CostMap.ext (ofList_inj (fun _ _ _ _ => Residual.form_inj) h)

theorem Profile.form_inj {p p' : Profile α} (hreal : Separates real p.scalars p'.scalars)
    (h : p.form real = p'.form real) : p = p' := by
  simp only [form, record_inj, List.cons.injEq, Prod.mk.injEq, true_and, and_true] at h
  ext1
  refine ofList_inj (fun v hv w hw => vectorForm_inj (hreal.mono ?_ ?_)) h
  · exact fun x hx => List.mem_flatten.2 ⟨v, hv, hx⟩
  · exact fun x hx => List.mem_flatten.2 ⟨w, hw, hx⟩

theorem Binding.form_inj {b b' : Binding α}
    (hreal : Separates real b.profile.scalars b'.profile.scalars)
    (h : b.form real = b'.form real) : b = b' := by
  simp only [form, record_inj, List.cons.injEq, Prod.mk.injEq, true_and, and_true, ofNat_inj] at h
  exact Binding.ext (Profile.form_inj hreal h.1) h.2

theorem Integrator.form_inj {i i' : Integrator} (h : i.form = i'.form) : i = i' := by
  cases i <;> cases i' <;> simp_all [form, record_inj, ofNat_inj]

theorem Dimensions.form_inj {d d' : Dimensions} (h : d.form = d'.form) : d = d' := by
  simp only [form, record_inj, List.cons.injEq, Prod.mk.injEq, true_and, and_true, ofNat_inj] at h
  obtain ⟨hx, hu, hp, hy, hye, hbu, hn⟩ := h
  exact Dimensions.ext hx hu hp hy hye hbu hn

theorem SolverOptions.form_inj {o o' : SolverOptions α}
    (hreal : Separates real o.scalars o'.scalars) (h : o.form real = o'.form real) : o = o' := by
  simp only [form, record_inj, List.cons.injEq, Prod.mk.injEq, true_and, and_true, ofNat_inj] at h
  obtain ⟨hn, htf, hintegrator, hqp, hcond, hhessian, hlm, hnlp, hiter, htol, hcost⟩ := h
  have htf := hreal _ (by simp [scalars]) _ (by simp [scalars]) htf
  have hlm := hreal _ (by simp [scalars]) _ (by simp [scalars]) hlm
  have htol := hreal _ (by simp [scalars]) _ (by simp [scalars]) htol
  have hintegrator := Integrator.form_inj hintegrator
  have hqp := QpSolver.codec.eq_of_write_eq trivial hqp
  have hhessian := HessianApproximation.codec.eq_of_write_eq trivial hhessian
  have hnlp := NlpSolver.codec.eq_of_write_eq trivial hnlp
  have hcost := CostDiscretization.codec.eq_of_write_eq trivial hcost
  exact SolverOptions.ext hn htf hintegrator hqp hcond hhessian hlm hnlp hiter htol hcost

theorem Cost.form_inj {c c' : Cost α} (hreal : Separates real c.scalars c'.scalars)
    (h : c.form real = c'.form real) : c = c' := by
  simp only [form, record_inj, List.cons.injEq, Prod.mk.injEq, true_and, and_true] at h
  -- There is one kind of cost only, so nothing is left of the two kinds.
  obtain ⟨hmap, hmape, hw, hwe, hyref, hyrefe⟩ := h
  simp only [scalars] at hreal
  obtain ⟨hreal, hyrefeReal⟩ := hreal.of_append
  obtain ⟨hreal, hyrefReal⟩ := hreal.of_append
  obtain ⟨hwReal, hweReal⟩ := hreal.of_append
  have hmap := CostMap.form_inj hmap
  have hmape := CostMap.form_inj hmape
  have hw := Matrix.form_inj hwReal hw
  have hwe := Matrix.form_inj hweReal hwe
  have hyref := vectorForm_inj hyrefReal hyref
  have hyrefe := vectorForm_inj hyrefeReal hyrefe
  exact Cost.ext rfl rfl hmap hmape hw hwe hyref hyrefe

end Parts

/-! ### Keys -/

namespace Problem

/-- The problem without the values that every handle takes from its own problem. -/
def baked (p : Problem α) : Problem α :=
  { p with
    constraints := { p.constraints with initialState := none }
    parameters := [] }

theorem separates_ofFloat {xs ys : List Float} (hxs : ∀ x ∈ xs, Scalar.isFinite x = true) :
    Separates ofFloat xs ys :=
  fun x hx _ _ => codec_float.eq_of_write_eq (hxs x hx)

/-- The document whose text is the key. -/
def keyForm (p : Problem Float) : Json :=
  .record [
    ("model_name", .ofString p.model),
    ("dims", p.dimensions.form),
    ("cost", p.cost.form Json.ofFloat),
    ("lbu", vectorForm Json.ofFloat p.constraints.lowerBounds),
    ("ubu", vectorForm Json.ofFloat p.constraints.upperBounds),
    ("idxbu", .ofList .ofNat p.constraints.boundedInputs),
    ("reference", .ofOption (Binding.form Json.ofFloat) p.reference),
    ("options", p.options.form Json.ofFloat)]

theorem closed_keyForm (p : Problem Float) : p.keyForm.Closed :=
  closed_record (by
    simp [codec_string.closed, Dimensions.codec.closed, (Cost.codec codec_float).closed,
      (codec_vector codec_float).closed, codec_size.list.closed,
      (Binding.codec codec_float).closed_ofOption, (SolverOptions.codec codec_float).closed])

/-- A key can be parsed, so it fixes its document. -/
theorem key_inj {p q : Problem Float} : p.key = q.key ↔ p.keyForm = q.keyForm := by
  constructor
  · intro h
    have hp := parse?_render .compact (closed_keyForm p)
    have hq := parse?_render .compact (closed_keyForm q)
    change parse? p.key = _ at hp
    rw [h] at hp
    exact Option.some.inj (hp.symm.trans hq)
  · intro h
    exact congrArg (render .compact) h

/-- The document fixes what is baked into a solver, as far as its scalars are told apart. -/
theorem baked_eq_of_keyForm_eq {p q : Problem Float}
    (hreal : Separates ofFloat p.baked.scalars q.baked.scalars) (h : p.keyForm = q.keyForm) :
    p.baked = q.baked := by
  simp only [keyForm, record_inj, List.cons.injEq, Prod.mk.injEq, true_and, and_true] at h
  obtain ⟨hmodel, hdims, hcost, hlower, hupper, hindices, hreference, hoptions⟩ := h
  obtain ⟨hreal, hoptionsReal⟩ := hreal.of_append
  obtain ⟨hreal, hprofileReal⟩ := hreal.of_append
  obtain ⟨hreal, -⟩ := hreal.of_append
  obtain ⟨hcostReal, hreal⟩ := hreal.of_append
  obtain ⟨hreal, -⟩ := hreal.of_append
  obtain ⟨hlowerReal, hupperReal⟩ := hreal.of_append
  have hmodel := codec_string.eq_of_write_eq trivial hmodel
  have hdims := Dimensions.form_inj hdims
  have hcost : p.cost = q.cost := Cost.form_inj hcostReal hcost
  have hlower : p.constraints.lowerBounds = q.constraints.lowerBounds :=
    vectorForm_inj hlowerReal hlower
  have hupper : p.constraints.upperBounds = q.constraints.upperBounds :=
    vectorForm_inj hupperReal hupper
  have hindices := ofList_inj (fun _ _ _ _ => ofNat_inj.1) hindices
  have hreference : p.reference = q.reference := by
    refine ofOption_inj (fun _ => record_ne_null _) (fun b hb b' hb' => ?_) hreference
    have hb : p.reference = some b := Option.mem_toList.1 hb
    have hb' : q.reference = some b' := Option.mem_toList.1 hb'
    refine Binding.form_inj (hprofileReal.mono ?_ ?_)
    · intro x hx
      simpa [baked, hb] using hx
    · intro x hx
      simpa [baked, hb'] using hx
  have hoptions : p.options = q.options := SolverOptions.form_inj hoptionsReal hoptions
  simp only [baked, hmodel, hdims, hcost, hlower, hupper, hindices, hreference, hoptions]

theorem scalars_baked_subset (p : Problem α) : p.baked.scalars ⊆ p.scalars := by
  intro x hx
  simp only [baked, scalars, Constraints.scalars, List.mem_append] at hx ⊢
  simp only [Option.getD_none, List.not_mem_nil, or_false] at hx
  tauto

/-- The key of a finite problem fixes everything that is baked into a solver. It is enough that one
of the two problems is finite: what is written alike is then finite in both. -/
theorem baked_eq_of_key_eq {p q : Problem Float} (hp : p.IsFinite) (h : p.key = q.key) :
    p.baked = q.baked :=
  baked_eq_of_keyForm_eq (separates_ofFloat fun x hx => hp x (p.scalars_baked_subset hx))
    (key_inj.1 h)

end Problem

end RecedingHorizon
