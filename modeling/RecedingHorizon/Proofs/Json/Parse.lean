import Mathlib
import RecedingHorizon.Json.Parse
import RecedingHorizon.Proofs.Json.Numeral
import RecedingHorizon.Proofs.Json.Quoted

/-!
Documents read back. A document whose strings end where they are closed is parsed again from its
text, in either layout. The induction is on the document; the text behind a value is arbitrary as
long as no number goes on with it, and as much fuel as there is text is enough.
-/

namespace RecedingHorizon.Json

open Numeral (Ends)

/-- Between quotes, the string ends at the closing one. -/
def Quoted.Closed (q : Quoted) : Prop :=
  ∀ rest, Quoted.scan (q ++ Quoted.quote :: rest) = some (q, rest)

/-- Every string in the document is closed, names included. -/
inductive Closed : Json → Prop where
  | null : Closed .null
  | bool (value : Bool) : Closed (.bool value)
  | number (literal : Numeral) : Closed (.number literal)
  | string {literal : Quoted} (h : literal.Closed) : Closed (.string literal)
  | array {items : List Json} (h : ∀ item ∈ items, Closed item) : Closed (.array items)
  | object {members : List (Quoted × Json)} (hnames : ∀ member ∈ members, member.1.Closed)
      (hvalues : ∀ member ∈ members, Closed member.2) : Closed (.object members)

/-! ### Blanks -/

theorem isBlank_newline (layout : Layout) (depth : Nat) :
    ∀ b ∈ layout.newline depth, isBlank b = true := by
  cases layout with
  | compact => simp [Layout.newline]
  | indented =>
      intro b hb
      simp only [Layout.newline, List.mem_cons, List.mem_replicate] at hb
      rcases hb with rfl | ⟨-, rfl⟩ <;> rfl

theorem skipBlanks_append {blanks : Bytes} (hblanks : ∀ b ∈ blanks, isBlank b = true)
    (bytes : Bytes) : skipBlanks (blanks ++ bytes) = skipBlanks bytes := by
  induction blanks with
  | nil => rfl
  | cons b blanks ih =>
      rw [List.forall_mem_cons] at hblanks
      simpa [skipBlanks, List.dropWhile_cons, hblanks.1] using ih hblanks.2

theorem skipBlanks_cons {b : UInt8} (hb : isBlank b = false) (bytes : Bytes) :
    skipBlanks (b :: bytes) = b :: bytes := by
  simp [skipBlanks, hb]

theorem scanValue_append (fuel : Nat) {blanks : Bytes} (hblanks : ∀ b ∈ blanks, isBlank b = true)
    (bytes : Bytes) : scanValue fuel (blanks ++ bytes) = scanValue fuel bytes := by
  cases fuel with
  | zero => rfl
  | succ fuel => simp only [scanValue, skipBlanks_append hblanks]

/-! ### What a value starts with -/

theorem mem_starts : ∀ b ∈ Numeral.starts, isBlank b = false ∧ b ≠ 34 ∧ b ≠ 91 ∧ b ≠ 93 ∧
    b ≠ 102 ∧ b ≠ 110 ∧ b ≠ 116 ∧ b ≠ 123 := by
  decide +kernel

/-- No value starts with a blank or a closing bracket. -/
theorem exists_renderAt_eq_cons (layout : Layout) (depth : Nat) (j : Json) :
    ∃ b tail, renderAt layout depth j = b :: tail ∧ isBlank b = false ∧ b ≠ 93 := by
  match j with
  | .null => exact ⟨110, _, rfl, rfl, by decide⟩
  | .bool true => exact ⟨116, _, rfl, rfl, by decide⟩
  | .bool false => exact ⟨102, _, rfl, rfl, by decide⟩
  | .number literal =>
      obtain ⟨b, tail, hrender, hb⟩ := Numeral.exists_render_eq_cons literal
      have hstart := mem_starts b hb
      exact ⟨b, tail, by rw [renderAt, hrender], hstart.1, hstart.2.2.2.1⟩
  | .string literal => exact ⟨34, _, rfl, rfl, by decide⟩
  | .array [] => exact ⟨91, _, rfl, rfl, by decide⟩
  | .array (item :: items) => exact ⟨91, _, by rw [renderAt]; rfl, rfl, by decide⟩
  | .object [] => exact ⟨123, _, rfl, rfl, by decide⟩
  | .object ((name, value) :: members) => exact ⟨123, _, by rw [renderAt]; rfl, rfl, by decide⟩

/-! ### What stands behind a value -/

theorem ends_cons {b : UInt8} (hb : Numeral.digit? b = none ∧ b ≠ 46 ∧ b ≠ 101 ∧ b ≠ 69)
    (rest : Bytes) : Ends (b :: rest) := by
  rintro _ ⟨⟩
  exact hb

theorem ends_newline (layout : Layout) (depth : Nat) {rest : Bytes} (hrest : Ends rest) :
    Ends (layout.newline depth ++ rest) := by
  cases layout with
  | compact => exact hrest
  | indented => exact ends_cons (by decide) _

theorem ends_renderItems (layout : Layout) (depth : Nat) (items : List Json) (rest : Bytes) :
    Ends (renderItems layout depth items ++ rest) := by
  cases items with
  | nil =>
      rw [renderItems, List.append_assoc]
      exact ends_newline layout depth (ends_cons (by decide) _)
  | cons item items =>
      rw [renderItems]
      exact ends_cons (by decide) _

theorem ends_renderMembers (layout : Layout) (depth : Nat) (members : List (Quoted × Json))
    (rest : Bytes) : Ends (renderMembers layout depth members ++ rest) := by
  match members with
  | [] =>
      rw [renderMembers, List.append_assoc]
      exact ends_newline layout depth (ends_cons (by decide) _)
  | (name, value) :: members =>
      rw [renderMembers]
      exact ends_cons (by decide) _

/-! ### Reading what is written -/

/-- The value is read from its text, with as much fuel as there is text. -/
def Reads (layout : Layout) (j : Json) : Prop :=
  ∀ depth fuel rest, Ends rest → (renderAt layout depth j).length ≤ fuel →
    scanValue fuel (renderAt layout depth j ++ rest) = some (j, rest)

theorem reads_number (layout : Layout) (literal : Numeral) : Reads layout (.number literal) := by
  intro depth fuel rest hrest hfuel
  obtain ⟨b, tail, hrender, hb⟩ := Numeral.exists_render_eq_cons literal
  obtain ⟨hblank, h34, h91, -, h102, h110, h116, h123⟩ := mem_starts b hb
  have hscan := Numeral.scan_render literal hrest
  cases fuel with
  | zero => simp [renderAt, hrender] at hfuel
  | succ fuel =>
      rw [renderAt, scanValue]
      rw [hrender, List.cons_append] at hscan ⊢
      rw [skipBlanks_cons hblank]
      -- every other kind of value has a first byte that no number has
      split
      next heq => exact absurd (List.head_eq_of_cons_eq heq) h110
      next heq => exact absurd (List.head_eq_of_cons_eq heq) h116
      next heq => exact absurd (List.head_eq_of_cons_eq heq) h102
      next heq => exact absurd (List.head_eq_of_cons_eq heq) h34
      next heq => exact absurd (List.head_eq_of_cons_eq heq) h91
      next heq => exact absurd (List.head_eq_of_cons_eq heq) h123
      next => simp [hscan]

theorem reads_null (layout : Layout) : Reads layout .null := by
  intro depth fuel rest hrest hfuel
  have hnull : ascii "null" = [110, 117, 108, 108] := rfl
  simp only [renderAt, hnull, List.length_cons, List.length_nil] at hfuel
  obtain ⟨fuel, rfl⟩ := Nat.exists_eq_succ_of_ne_zero (show fuel ≠ 0 by omega)
  simp [renderAt, hnull, scanValue, skipBlanks_cons (show isBlank 110 = false from rfl)]

theorem reads_bool (layout : Layout) (value : Bool) : Reads layout (.bool value) := by
  intro depth fuel rest hrest hfuel
  have htrue : ascii "true" = [116, 114, 117, 101] := rfl
  have hfalse : ascii "false" = [102, 97, 108, 115, 101] := rfl
  cases value with
  | true =>
      simp only [renderAt, htrue, List.length_cons, List.length_nil] at hfuel
      obtain ⟨fuel, rfl⟩ := Nat.exists_eq_succ_of_ne_zero (show fuel ≠ 0 by omega)
      simp [renderAt, htrue, scanValue, skipBlanks_cons (show isBlank 116 = false from rfl)]
  | false =>
      simp only [renderAt, hfalse, List.length_cons, List.length_nil] at hfuel
      obtain ⟨fuel, rfl⟩ := Nat.exists_eq_succ_of_ne_zero (show fuel ≠ 0 by omega)
      simp [renderAt, hfalse, scanValue, skipBlanks_cons (show isBlank 102 = false from rfl)]

theorem reads_string (layout : Layout) {literal : Quoted} (h : literal.Closed) :
    Reads layout (.string literal) := by
  intro depth fuel rest hrest hfuel
  have hscan := h rest
  have hquote : Quoted.quote = 34 := rfl
  rw [hquote] at hscan
  simp only [renderAt, renderQuoted, List.cons_append, List.length_cons] at hfuel
  obtain ⟨fuel, rfl⟩ := Nat.exists_eq_succ_of_ne_zero (show fuel ≠ 0 by omega)
  simp [renderAt, renderQuoted, hquote, scanValue, skipBlanks_cons (show isBlank 34 = false from rfl),
    hscan]

theorem scanItems_renderItems {layout : Layout} {items : List Json}
    (hitems : ∀ item ∈ items, Reads layout item) (depth fuel : Nat) (rest : Bytes)
    (hfuel : (renderItems layout depth items).length ≤ fuel) :
    scanItems fuel (renderItems layout depth items ++ rest) = some (items, rest) := by
  induction items generalizing fuel with
  | nil =>
      have hclose : ascii "]" = [93] := rfl
      rw [renderItems, List.append_assoc]
      simp only [renderItems, List.length_append, hclose, List.length_singleton] at hfuel
      obtain ⟨fuel, rfl⟩ := Nat.exists_eq_succ_of_ne_zero (show fuel ≠ 0 by omega)
      simp [scanItems, skipBlanks_append (isBlank_newline layout depth), hclose,
        skipBlanks_cons (show isBlank 93 = false from rfl)]
  | cons item items ih =>
      have hcomma : ascii "," = [44] := rfl
      rw [List.forall_mem_cons] at hitems
      -- the comma is worth the unit of fuel that the item takes
      simp only [renderItems, List.length_append, hcomma, List.length_singleton] at hfuel
      obtain ⟨fuel, rfl⟩ := Nat.exists_eq_succ_of_ne_zero (show fuel ≠ 0 by omega)
      have hitem := hitems.1 (depth + 1) fuel (renderItems layout depth items ++ rest)
        (ends_renderItems layout depth items rest) (by omega)
      have hrest := ih hitems.2 fuel (by omega)
      simp only [renderItems, List.append_assoc, hcomma, List.singleton_append]
      simp [scanItems, skipBlanks_cons (show isBlank 44 = false from rfl),
        scanValue_append fuel (isBlank_newline layout (depth + 1)), hitem, hrest]

/-- A colon, and what may stand between it and the value. -/
theorem exists_colon_eq_cons (layout : Layout) :
    ∃ blanks, layout.colon = 58 :: blanks ∧ ∀ b ∈ blanks, isBlank b = true := by
  cases layout with
  | compact => exact ⟨[], rfl, by simp⟩
  | indented => exact ⟨[32], rfl, by simp [isBlank]⟩

theorem scanName_append {blanks : Bytes} (hblanks : ∀ b ∈ blanks, isBlank b = true)
    {name : Quoted} (hname : name.Closed) (rest : Bytes) :
    scanName (blanks ++ (renderQuoted name ++ 58 :: rest)) = some (name, rest) := by
  have hscan := hname (58 :: rest)
  have hquote : Quoted.quote = 34 := rfl
  rw [hquote] at hscan
  simp [scanName, skipBlanks_append hblanks, renderQuoted, hquote,
    skipBlanks_cons (show isBlank 34 = false from rfl), hscan,
    skipBlanks_cons (show isBlank 58 = false from rfl)]

theorem scanMembers_renderMembers {layout : Layout} {members : List (Quoted × Json)}
    (hnames : ∀ member ∈ members, member.1.Closed)
    (hvalues : ∀ member ∈ members, Reads layout member.2) (depth fuel : Nat) (rest : Bytes)
    (hfuel : (renderMembers layout depth members).length ≤ fuel) :
    scanMembers fuel (renderMembers layout depth members ++ rest) = some (members, rest) := by
  induction members generalizing fuel with
  | nil =>
      have hclose : ascii "\x7d" = [125] := rfl
      rw [renderMembers, List.append_assoc]
      simp only [renderMembers, List.length_append, hclose, List.length_singleton] at hfuel
      obtain ⟨fuel, rfl⟩ := Nat.exists_eq_succ_of_ne_zero (show fuel ≠ 0 by omega)
      simp [scanMembers, skipBlanks_append (isBlank_newline layout depth), hclose,
        skipBlanks_cons (show isBlank 125 = false from rfl)]
  | cons member members ih =>
      obtain ⟨name, value⟩ := member
      obtain ⟨blanks, hcolon, hblanks⟩ := exists_colon_eq_cons layout
      have hcomma : ascii "," = [44] := rfl
      rw [List.forall_mem_cons] at hnames hvalues
      simp only [renderMembers, List.length_append, hcomma, List.length_singleton] at hfuel
      obtain ⟨fuel, rfl⟩ := Nat.exists_eq_succ_of_ne_zero (show fuel ≠ 0 by omega)
      have hvalue := hvalues.1 (depth + 1) fuel (renderMembers layout depth members ++ rest)
        (ends_renderMembers layout depth members rest) (by simp only; omega)
      have hrest := ih hnames.2 hvalues.2 fuel (by omega)
      simp only [renderMembers, List.append_assoc, hcomma, hcolon, List.cons_append]
      simp [scanMembers, skipBlanks_cons (show isBlank 44 = false from rfl),
        scanName_append (isBlank_newline layout (depth + 1)) hnames.1,
        scanValue_append fuel hblanks, hvalue, hrest]

theorem scanValue_open_array (fuel : Nat) {bytes : Bytes}
    (hitem : ∃ b tail, skipBlanks bytes = b :: tail ∧ b ≠ 93) :
    scanValue (fuel + 1) (91 :: bytes) = (do
      let (item, rest) ← scanValue fuel bytes
      let (items, rest) ← scanItems fuel rest
      pure (.array (item :: items), rest)) := by
  obtain ⟨b, tail, hbytes, hb⟩ := hitem
  rw [scanValue, skipBlanks_cons (by rfl)]
  simp only [hbytes]
  split
  next heq => exact absurd (List.head_eq_of_cons_eq heq) hb
  next => rfl

theorem scanValue_open_object (fuel : Nat) {bytes : Bytes}
    (hname : ∃ b tail, skipBlanks bytes = b :: tail ∧ b ≠ 125) :
    scanValue (fuel + 1) (123 :: bytes) = (do
      let (name, rest) ← scanName bytes
      let (value, rest) ← scanValue fuel rest
      let (members, rest) ← scanMembers fuel rest
      pure (.object ((name, value) :: members), rest)) := by
  obtain ⟨b, tail, hbytes, hb⟩ := hname
  rw [scanValue, skipBlanks_cons (by rfl)]
  simp only [hbytes]
  split
  next heq => exact absurd (List.head_eq_of_cons_eq heq) hb
  next => rfl

theorem reads_array {layout : Layout} {items : List Json}
    (hitems : ∀ item ∈ items, Reads layout item) : Reads layout (.array items) := by
  intro depth fuel rest hrest hfuel
  cases items with
  | nil =>
      have hbrackets : ascii "[]" = [91, 93] := rfl
      simp only [renderAt, hbrackets, List.length_cons, List.length_nil] at hfuel
      obtain ⟨fuel, rfl⟩ := Nat.exists_eq_succ_of_ne_zero (show fuel ≠ 0 by omega)
      simp [renderAt, hbrackets, scanValue, skipBlanks_cons (show isBlank 91 = false from rfl),
        skipBlanks_cons (show isBlank 93 = false from rfl)]
  | cons item items =>
      have hopen : ascii "[" = [91] := rfl
      rw [List.forall_mem_cons] at hitems
      simp only [renderAt, List.length_append, hopen, List.length_singleton] at hfuel
      obtain ⟨fuel, rfl⟩ := Nat.exists_eq_succ_of_ne_zero (show fuel ≠ 0 by omega)
      have hitem := hitems.1 (depth + 1) fuel (renderItems layout depth items ++ rest)
        (ends_renderItems layout depth items rest) (by omega)
      have hitems := scanItems_renderItems hitems.2 depth fuel rest (by omega)
      obtain ⟨b, tail, hrender, hblank, h93⟩ := exists_renderAt_eq_cons layout (depth + 1) item
      have hbytes : skipBlanks (layout.newline (depth + 1) ++
          (renderAt layout (depth + 1) item ++ (renderItems layout depth items ++ rest)))
            = b :: (tail ++ (renderItems layout depth items ++ rest)) := by
        rw [skipBlanks_append (isBlank_newline layout (depth + 1)), hrender, List.cons_append,
          skipBlanks_cons hblank]
      simp only [renderAt, List.append_assoc, hopen, List.cons_append, List.nil_append]
      rw [scanValue_open_array fuel ⟨b, _, hbytes, h93⟩]
      simp [scanValue_append fuel (isBlank_newline layout (depth + 1)), hitem, hitems]

theorem reads_object {layout : Layout} {members : List (Quoted × Json)}
    (hnames : ∀ member ∈ members, member.1.Closed)
    (hvalues : ∀ member ∈ members, Reads layout member.2) : Reads layout (.object members) := by
  intro depth fuel rest hrest hfuel
  cases members with
  | nil =>
      have hbraces : ascii "\x7b\x7d" = [123, 125] := rfl
      simp only [renderAt, hbraces, List.length_cons, List.length_nil] at hfuel
      obtain ⟨fuel, rfl⟩ := Nat.exists_eq_succ_of_ne_zero (show fuel ≠ 0 by omega)
      simp [renderAt, hbraces, scanValue, skipBlanks_cons (show isBlank 123 = false from rfl),
        skipBlanks_cons (show isBlank 125 = false from rfl)]
  | cons member members =>
      obtain ⟨name, value⟩ := member
      obtain ⟨blanks, hcolon, hblanks⟩ := exists_colon_eq_cons layout
      have hopen : ascii "\x7b" = [123] := rfl
      rw [List.forall_mem_cons] at hnames hvalues
      simp only [renderAt, List.length_append, hopen, List.length_singleton] at hfuel
      obtain ⟨fuel, rfl⟩ := Nat.exists_eq_succ_of_ne_zero (show fuel ≠ 0 by omega)
      have hvalue := hvalues.1 (depth + 1) fuel (renderMembers layout depth members ++ rest)
        (ends_renderMembers layout depth members rest) (by simp only; omega)
      have hmembers := scanMembers_renderMembers hnames.2 hvalues.2 depth fuel rest (by omega)
      have hbytes (tail : Bytes) :
          skipBlanks (layout.newline (depth + 1) ++ (renderQuoted name ++ tail))
            = 34 :: (name ++ [34] ++ tail) := by
        rw [skipBlanks_append (isBlank_newline layout (depth + 1))]
        rfl
      simp only [renderAt, List.append_assoc, hopen, hcolon, List.cons_append, List.nil_append]
      rw [scanValue_open_object fuel ⟨34, _, hbytes _, by decide⟩]
      simp [scanName_append (isBlank_newline layout (depth + 1)) hnames.1,
        scanValue_append fuel hblanks, hvalue, hmembers]

/-- A closed document is read from its text. -/
theorem reads_of_closed (layout : Layout) {j : Json} (hj : Closed j) : Reads layout j := by
  induction hj with
  | null => exact reads_null layout
  | bool value => exact reads_bool layout value
  | number literal => exact reads_number layout literal
  | string h => exact reads_string layout h
  | array _ ih => exact reads_array ih
  | object hnames _ ih => exact reads_object hnames ih

theorem parse?_render (layout : Layout) {j : Json} (hj : Closed j) :
    parse? (render layout j) = some j := by
  have hends : Ends [] := by simp [Ends]
  have hread := reads_of_closed layout hj 0 (2 * (renderAt layout 0 j).length + 1) [] hends
    (by omega)
  rw [List.append_nil] at hread
  simp [parse?, render, hread, skipBlanks]

end RecedingHorizon.Json
