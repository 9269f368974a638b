import Mathlib
import RecedingHorizon.Problem.Form
import RecedingHorizon.Proofs.Problem.Form

/-!
Problem files read back. What is written and decoded again is the same problem, bit for bit, exactly
if it is finite; and what is decoded from any content is finite. The validation that follows decides
which of the decoded problems are handed out.
-/

namespace RecedingHorizon

/-- The places that can be written to. -/
def Place.IsWritable : Place → Prop
  | .nowhere | .directory => False
  | .vacant | .file _ => True

namespace Problem

/-! ### Decoding -/

theorem codec_form : Json.Codec (form Json.ofFloat) (ofForm? Json.toFloat?)
    fun p => p.IsFinite ∧ p.FitsWords :=
  Problem.codec Json.codec_float

theorem decode?_encode {p q : Problem Float} :
    decode? p.encode = some q ↔ q = p ∧ p.IsFinite ∧ p.FitsWords := by
  have hparse := Json.parse?_render .indented (codec_form.closed p)
  simp only [decode?, encode, hparse, Option.bind_eq_bind, Option.bind_some]
  exact codec_form.read?_write

theorem good_of_decode? {content : Bytes} {p : Problem Float} (h : decode? content = some p) :
    p.IsFinite ∧ p.FitsWords := by
  obtain ⟨j, -, hj⟩ := Option.bind_eq_some_iff.1 h
  exact codec_form.good_of_read? hj

theorem decode?_encode_of_isFinite {p : Problem Float} (hp : p.FitsWords) (hfinite : p.IsFinite) :
    decode? p.encode = some p :=
  decode?_encode.2 ⟨rfl, hfinite, hp⟩

theorem decode?_encode_eq_none {p : Problem Float} (hfinite : ¬ p.IsFinite) :
    decode? p.encode = none := by
  rw [Option.eq_none_iff_forall_ne_some]
  intro q hq
  exact hfinite (decode?_encode.1 hq).2.1

/-! ### Writing and reading -/

theorem write_eq_ok {p : Problem Float} {place written : Place} :
    p.write place = .ok written ↔ place.IsWritable ∧ written = .file p.encode := by
  cases place <;> simp [write, Place.IsWritable, eq_comm]

section Reading

variable [Spectral Float]

theorem read_eq_ok {place : Place} {q : Problem Float} :
    read place = .ok q ↔
      ∃ content, place = .file content ∧ decode? content = some q ∧ q.validate = .ok () := by
  cases place with
  | file content =>
      cases hdecode : decode? content with
      | none => simp [read, hdecode]
      | some p =>
          cases hvalidate : p.validate with
          | ok =>
              simp only [read, hdecode, hvalidate, Place.file.injEq, exists_eq_left', Option.some.injEq]
              refine ⟨?_, ?_⟩
              · rintro h
                cases h
                exact ⟨rfl, hvalidate⟩
              · rintro ⟨rfl, -⟩
                rfl
          | error e =>
              simp only [read, hdecode, hvalidate, Place.file.injEq, exists_eq_left', Option.some.injEq]
              refine ⟨nofun, ?_⟩
              rintro ⟨rfl, hok⟩
              cases hvalidate.symm.trans hok
  | _ => simp [read]

theorem read_file_of_decode?_none {content : Bytes} (hdecode : decode? content = none) :
    read (.file content) = .error .format := by
  simp only [read, hdecode]

theorem read_file_of_validate {content : Bytes} {p : Problem Float} {e : ValidationError Float}
    (hdecode : decode? content = some p) (hvalidate : p.validate = .error e) :
    read (.file content) = .error (.validation e) := by
  simp only [read, hdecode, hvalidate]
  rfl

theorem read_file_encode {p q : Problem Float} (hp : p.FitsWords) :
    read (.file p.encode) = .ok q ↔ q = p ∧ p.validate = .ok () ∧ p.IsFinite := by
  simp only [read_eq_ok, Place.file.injEq, exists_eq_left', decode?_encode]
  constructor
  · rintro ⟨⟨rfl, hfinite, -⟩, hvalidate⟩
    exact ⟨rfl, hvalidate, hfinite⟩
  · rintro ⟨rfl, hvalidate, hfinite⟩
    exact ⟨⟨rfl, hfinite, hp⟩, hvalidate⟩

/-! ### The round trip -/

/-- Writing a problem and reading it again gives the problem back exactly if it is valid and finite.
An infinite one fails for its format, an invalid one for what the validation says of it. Whatever
can be read at all is valid and finite, and comes back when it is written and read again. -/
theorem read_write :
    (∀ (p : Problem Float) (place : Place), p.FitsWords → place.IsWritable →
      ∃ written, p.write place = .ok written ∧
        (∀ q, read written = .ok q ↔ q = p ∧ p.validate = .ok () ∧ p.IsFinite) ∧
        (¬ p.IsFinite → read written = .error .format) ∧
        ∀ e, p.IsFinite → p.validate = .error e → read written = .error (.validation e)) ∧
    ∀ (content : Bytes) (p : Problem Float), read (.file content) = .ok p →
      p.validate = .ok () ∧ p.IsFinite ∧ read (.file p.encode) = .ok p := by
  constructor
  · intro p place hp hplace
    refine ⟨.file p.encode, write_eq_ok.2 ⟨hplace, rfl⟩, fun q => read_file_encode hp, ?_, ?_⟩
    · intro hfinite
      exact read_file_of_decode?_none (decode?_encode_eq_none hfinite)
    · intro e hfinite hvalidate
      exact read_file_of_validate (decode?_encode_of_isFinite hp hfinite) hvalidate
  · intro content p hread
    obtain ⟨_, -, hdecode, hvalidate⟩ := read_eq_ok.1 hread
    obtain ⟨hfinite, hp⟩ := good_of_decode? hdecode
    exact ⟨hvalidate, hfinite, (read_file_encode hp).2 ⟨rfl, hvalidate, hfinite⟩⟩

end Reading

theorem read_write_tank :
    ∃ written, Tank.problem.write .vacant = .ok written ∧ read written = .ok Tank.problem := by
  have hwords : Tank.problem.FitsWords := by decide +kernel
  have hfinite : Tank.problem.IsFinite := by decide +kernel
  obtain ⟨written, hwritten, hread, -⟩ := read_write.1 Tank.problem .vacant hwords trivial
  exact ⟨written, hwritten, (hread _).2 ⟨rfl, Tank.validate_problem, hfinite⟩⟩

end Problem

end RecedingHorizon
