import Mathlib.Algebra.GroupWithZero.Nat
import Trackinizer.RowFilter

namespace Trackinizer

open Ternary

theorem textChar_eq_some {n : Nat} {c : Char} :
    textChar n = some c ↔ n = c.toNat ∧ c ≠ Char.ofNat 0 := by
  unfold textChar
  constructor
  · intro h
    split at h
    next hn =>
      have hc := Option.some.inj h
      subst hc
      have hto := toNat_ofNat_of_valid hn.2
      refine ⟨hto.symm, ?_⟩
      intro hzero
      have hcode := congrArg Char.toNat hzero
      rw [hto] at hcode
      exact hn.1 hcode
    next => cases h
  · intro h
    obtain ⟨hn, hc⟩ := h
    have hne : n ≠ 0 := by
      intro hzero
      apply hc
      rw [← Char.ofNat_toNat c, ← hn, hzero]
    have hvalid : n.isValidChar := hn ▸ c.valid
    rw [if_pos ⟨hne, hvalid⟩, hn, Char.ofNat_toNat]

/-- What PostgreSQL reads of an operand is its text, when it has one. -/
theorem textParam_eq_some {value : PyStr} {p : Text} :
    textParam value = some p ↔ value = p.map Char.toNat ∧ Char.ofNat 0 ∉ p := by
  induction value generalizing p with
  | nil => cases p <;> simp [textParam]
  | cons n value ih =>
      have hcons : textParam (n :: value) =
          (textChar n).bind fun c => (textParam value).map fun cs => c :: cs := by
        simp only [textParam, List.mapM_cons]
        cases textChar n with
        | none => rfl
        | some c => cases List.mapM textChar value <;> rfl
      rw [hcons]
      cases p with
      | nil =>
          have hno : ∀ o : Option Char, (o.bind fun c => (textParam value).map fun cs => c :: cs) ≠
              some [] := by
            intro o
            cases o <;> simp
          simp [hno]
      | cons c p =>
          simp only [Option.bind_eq_some_iff, Option.map_eq_some_iff, List.cons.injEq,
            List.map_cons, List.mem_cons, not_or]
          constructor
          · intro h
            obtain ⟨c', hc', cs, hcs, rfl, rfl⟩ := h
            have hchar := textChar_eq_some.mp hc'
            have hrest := ih.mp hcs
            exact ⟨⟨hchar.1, hrest.1⟩, Ne.symm hchar.2, hrest.2⟩
          · intro h
            obtain ⟨⟨hn, hvalue⟩, hc, hp⟩ := h
            exact ⟨c, textChar_eq_some.mpr ⟨hn, Ne.symm hc⟩, p, ih.mpr ⟨hvalue, hp⟩, rfl, rfl⟩

theorem map_toNat_inj {p q : Text} : p.map Char.toNat = q.map Char.toNat ↔ p = q := by
  constructor
  · intro h
    have hback := congrArg (List.map Char.ofNat) h
    simpa [List.map_map, Function.comp_def] using hback
  · intro h
    rw [h]

/-- An item's text in SQL. -/
def PyItem.sqlText : PyItem → Text
  | .str t => t.chars
  | .int n => intText n
  | .uuid u => uuidText u

theorem nul_not_mem_intText (n : Int) : Char.ofNat 0 ∉ intText n := by
  have hnat : ∀ m : Nat, Char.ofNat 0 ∉ m.repr.toList := by
    intro m hmem
    rw [Nat.toList_repr] at hmem
    have hdigit := Nat.isDigit_of_mem_toDigits (by omega) (by omega) hmem
    simp [Char.isDigit] at hdigit
  rw [intText, Int.toString_eq_repr]
  cases n with
  | ofNat m => exact hnat m
  | negSucc m =>
      simp only [Int.repr, String.toList_append, List.mem_append, not_or]
      exact ⟨by simp, hnat (m + 1)⟩

theorem hexCode_lt (d : Fin 16) : 0 < hexCode d ∧ hexCode d < 0x80 := by
  unfold hexCode
  split
  next => omega
  next => omega

theorem UuidValue.mem_str {u : UuidValue} {n : Nat} (h : n ∈ u.str) : 0 < n ∧ n < 0x80 := by
  have hcode : ∀ k ∈ u.digits.map hexCode, 0 < k ∧ k < 0x80 := by
    intro k hk
    obtain ⟨d, _, rfl⟩ := List.mem_map.mp hk
    exact hexCode_lt d
  simp only [UuidValue.str, List.mem_append, List.mem_singleton] at h
  rcases h with (((((((h | h) | h) | h) | h) | h) | h) | h) | h
  · exact hcode n (List.mem_of_mem_take h)
  · omega
  · exact hcode n (List.mem_of_mem_drop (List.mem_of_mem_take h))
  · omega
  · exact hcode n (List.mem_of_mem_drop (List.mem_of_mem_take h))
  · omega
  · exact hcode n (List.mem_of_mem_drop (List.mem_of_mem_take h))
  · omega
  · exact hcode n (List.mem_of_mem_drop h)

/-- Python renders an item as SQL does, and neither writes a NUL. -/
theorem PyItem.render_eq (item : PyItem) :
    item.render = item.sqlText.map Char.toNat ∧ Char.ofNat 0 ∉ item.sqlText := by
  cases item with
  | str t => exact ⟨rfl, t.nul_free⟩
  | int n => exact ⟨rfl, nul_not_mem_intText n⟩
  | uuid u =>
      refine ⟨?_, ?_⟩
      · have hid : u.str.map (Char.toNat ∘ Char.ofNat) = u.str.map id := by
          apply List.map_congr_left
          intro n hn
          exact toNat_ofNat_of_lt (UuidValue.mem_str hn).2
        rw [PyItem.render, PyItem.sqlText, uuidText, List.map_map, hid, List.map_id]
      · intro hmem
        obtain ⟨n, hn, hzero⟩ := List.mem_map.mp hmem
        have hlt := UuidValue.mem_str hn
        have hcode := congrArg Char.toNat hzero
        rw [toNat_ofNat_of_lt hlt.2] at hcode
        have hnul : (Char.ofNat 0).toNat = 0 := rfl
        omega

theorem PyItem.render_eq_iff {item : PyItem} {value : PyStr} {p : Text}
    (h : textParam value = some p) : item.render = value ↔ item.sqlText = p := by
  rw [item.render_eq.1, (textParam_eq_some.mp h).1, map_toNat_inj]

theorem PyItem.render_ne {item : PyItem} {value : PyStr} (h : textParam value = none) :
    item.render ≠ value := by
  intro heq
  have hsome := textParam_eq_some.mpr ⟨heq.symm.trans item.render_eq.1, item.render_eq.2⟩
  rw [h] at hsome
  cases hsome

section Cells

variable {parseUuid : PyStr → Option UuidValue} {cell : Cell} {value : PyStr} {p : Text}

/-- The items a filter compares; an absent value has none. -/
def Cell.items (cell : Cell) : List PyItem :=
  match cell.get with
  | none => []
  | some v => candidateItems v

theorem matchesIs_eq (cell : Cell) (value : PyStr) :
    matchesIs cell value = cell.items.any fun item => decide (item.render = value) := by
  rw [matchesIs, Cell.items]
  cases cell.get with
  | none => rfl
  | some v => rfl

theorem matchesIs_of_textParam (h : textParam value = some p) :
    matchesIs cell value = decide (p ∈ cell.items.map PyItem.sqlText) := by
  rw [matchesIs_eq]
  simp only [PyItem.render_eq_iff h]
  induction cell.items with
  | nil => rfl
  | cons item items ih =>
      rw [List.any_cons, ih]
      simp [eq_comm]

theorem matchesIs_of_unencodable (h : textParam value = none) : matchesIs cell value = false := by
  rw [matchesIs_eq, List.any_eq_false]
  intro item _
  simpa using PyItem.render_ne h

theorem items_sessionRecord (field : RecordField) :
    (Cell.sessionRecord field).items = field.live.map fun r => .str r.text := by
  cases hlive : field.live with
  | nil => simp [Cell.items, Cell.get, hlive]
  | cons r rs => simp [Cell.items, Cell.get, hlive, candidateItems]

theorem items_textArray (col : Option (List PgText)) :
    (Cell.textArray col).items = (col.getD []).map .str := by
  cases col with
  | none => rfl
  | some ts => rfl

theorem items_uuidArray (col : Option (List UuidValue)) :
    (Cell.uuidArray col).items = (col.getD []).map .uuid := by
  cases col with
  | none => rfl
  | some us => rfl

/-- A scalar's equality with the operand, in SQL and over its items. -/
theorem selects_scalar {α : Type} {col : Option α} {text : α → Text} {item : α → PyItem}
    (hitem : PyItem.sqlText ∘ item = text) :
    selects (eq (col.map text) (some p)) =
        decide (p ∈ (col.toList.map item).map PyItem.sqlText) ∧
      selects (isDistinctFrom (col.map text) (some p)) =
        !decide (p ∈ (col.toList.map item).map PyItem.sqlText) := by
  rw [selects_eq_param, selects_isDistinctFrom_param, List.map_map, hitem]
  cases col with
  | none => simp
  | some a => simp [eq_comm]

theorem items_text (col : Option PgText) :
    (Cell.text col).items = col.toList.map .str := by
  cases col with
  | none => rfl
  | some t => rfl

theorem items_integer (col : Option Int) :
    (Cell.integer col).items = col.toList.map .int := by
  cases col with
  | none => rfl
  | some n => rfl

/-- `p = ANY(COALESCE(col::text[], ARRAY[]))` over the items. -/
theorem eqAny_coalesce {α : Type} {col : Option (List α)} {text : α → Text} {item : α → PyItem}
    (hitem : PyItem.sqlText ∘ item = text) :
    eqAny (some p) (coalesce (col.map fun xs => (xs.map text).map some) []) =
      some (decide (p ∈ ((col.getD []).map item).map PyItem.sqlText)) := by
  have harray : coalesce (col.map fun xs => (xs.map text).map some) [] =
      some (((col.getD []).map text).map some) := by
    cases col with
    | none => rfl
    | some xs => rfl
  rw [harray, eqAny_param, List.map_map, hitem]
  exact congrArg some (decide_eq_decide.mpr Iff.rfl)

/-- `EXISTS (… AND r.text = p)` over the items. -/
theorem selects_live (field : RecordField) :
    (field.live.any fun r => selects (eq (some r.text.chars) (some p))) =
      decide (p ∈ (Cell.sessionRecord field).items.map PyItem.sqlText) := by
  rw [items_sessionRecord]
  induction field.live with
  | nil => rfl
  | cons r rs ih =>
      rw [List.any_cons, ih, selects_eq_param]
      simp [PyItem.sqlText, eq_comm]

/-- With an operand SQL can bind, `ne` selects what the predicate accepts. -/
theorem sqlSelects_ne (h : textParam value = some p) :
    sqlSelects parseUuid cell .ne value = !matchesIs cell value := by
  rw [matchesIs_of_textParam h]
  cases cell with
  | text col =>
      rw [items_text, sqlSelects, sqlWhere, h]
      exact (@selects_scalar p _ col PgText.chars .str rfl).2
  | textArray col =>
      rw [items_textArray, sqlSelects, sqlWhere, h, Option.map_some,
        @eqAny_coalesce p _ col PgText.chars .str rfl]
      rfl
  | uuidArray col =>
      rw [items_uuidArray, sqlSelects, sqlWhere, h, Option.map_some,
        @eqAny_coalesce p _ col uuidText .uuid rfl]
      rfl
  | integer col =>
      rw [items_integer, sqlSelects, sqlWhere, h]
      exact (@selects_scalar p _ col intText .int rfl).2
  | sessionRecord field =>
      rw [sqlSelects, sqlWhere, h, ← selects_live]
      rfl

/-- With an operand SQL can bind, `is` selects what the predicate accepts, except where the
operand is read as a UUID. -/
theorem sqlSelects_is (h : textParam value = some p) (hcell : ∀ col, cell ≠ .uuidArray col) :
    sqlSelects parseUuid cell .is value = matchesIs cell value := by
  rw [matchesIs_of_textParam h]
  cases cell with
  | text col =>
      rw [items_text, sqlSelects, sqlWhere, h]
      exact (@selects_scalar p _ col PgText.chars .str rfl).1
  | textArray col =>
      rw [items_textArray, sqlSelects, sqlWhere, h, Option.map_some]
      cases col with
      | none => simp [contains]
      | some ts =>
          rw [Option.map_some, contains_param, Option.any_some, selects_some,
            Option.getD_some, List.map_map]
          exact decide_eq_decide.mpr Iff.rfl
  | uuidArray col => exact absurd rfl (hcell col)
  | integer col =>
      rw [items_integer, sqlSelects, sqlWhere, h]
      exact (@selects_scalar p _ col intText .int rfl).1
  | sessionRecord field =>
      rw [sqlSelects, sqlWhere, h, ← selects_live]
      rfl

theorem sqlSelects_is_uuidArray (col : Option (List UuidValue)) :
    sqlSelects parseUuid (.uuidArray col) .is value = true ↔
      ∃ u ∈ col.getD [], parseUuid value = some u := by
  rw [sqlSelects, sqlWhere]
  cases parseUuid value with
  | none => simp
  | some u =>
      cases col with
      | none => simp [eqAny]
      | some us => simp [eqAny_param]

theorem matchesIs_uuidArray (col : Option (List UuidValue)) :
    matchesIs (.uuidArray col) value = true ↔ ∃ u ∈ col.getD [], u.str = value := by
  rw [matchesIs_eq, items_uuidArray]
  simp [PyItem.render]

/-- An operand SQL cannot bind fails the statement. -/
theorem sqlSelects_ne_of_unencodable (h : textParam value = none) :
    sqlSelects parseUuid cell .ne value = false := by
  cases cell with
  | _ =>
      rw [sqlSelects, sqlWhere, h]
      rfl

/-- Presence asks the same of both. -/
theorem sqlSelects_presence :
    sqlSelects parseUuid cell .isnull value = cell.get.isNone ∧
      sqlSelects parseUuid cell .notnull value = !cell.get.isNone := by
  cases cell with
  | sessionRecord field =>
      cases hlive : field.live with
      | nil => simp [sqlSelects, sqlWhere, existsRow, Cell.get, hlive]
      | cons r rs => simp [sqlSelects, sqlWhere, existsRow, Cell.get, hlive]
  | _ => simp [sqlSelects, sqlWhere, Cell.get, selects_isNull, selects_not_isNull]

/-- The clause means one thing to both: each op selects the same row, and `is` and `ne`
split the rows between them. -/
structure FilterAgrees (parseUuid : PyStr → Option UuidValue) (column : FilterColumn)
    (cell : Cell) (value : PyStr) : Prop where
  same : ∀ op, validateClause column op value = none →
    (sqlSelects parseUuid cell op value = true ↔ matchFilter column cell op value = .ok true)
  complement : validateClause column .is value = none →
    sqlSelects parseUuid cell .ne value = !sqlSelects parseUuid cell .is value ∧
      ∃ b, matchFilter column cell .is value = .ok b ∧
        matchFilter column cell .ne value = .ok !b

/-- SQL reads the operand otherwise than as the text it is: it cannot hold it, or it takes
it for the UUID of an element that prints differently. -/
def Misread (parseUuid : PyStr → Option UuidValue) (cell : Cell) (value : PyStr) : Prop :=
  textParam value = none ∨ ∃ us, cell = .uuidArray (some us) ∧
    ∃ u ∈ us, parseUuid value = some u ∧ u.str ≠ value

theorem validateClause_compared {column : FilterColumn} {op : FilterOp}
    (hop : op.valueless = false) :
    validateClause column op value = none ↔ value.length ≤ maxFilterValueChars := by
  simp [validateClause, hop]

theorem matchFilter_of_admitted {column : FilterColumn} {op : FilterOp}
    (h : validateClause column op value = none) :
    matchFilter column cell op value = .ok (matchesOp cell op value) := by
  rw [matchFilter, h]

/-- Away from misread operands `is` selects what the predicate accepts. -/
theorem sqlSelects_is_iff (hparse : ∀ u : UuidValue, parseUuid u.str = some u)
    (h : ¬ Misread parseUuid cell value) :
    sqlSelects parseUuid cell .is value = matchesIs cell value := by
  rw [Misread, not_or] at h
  obtain ⟨hparam, huuid⟩ := h
  obtain ⟨p, hp⟩ := Option.ne_none_iff_exists'.mp hparam
  by_cases hcell : ∃ col, cell = .uuidArray col
  · obtain ⟨col, rfl⟩ := hcell
    rw [Bool.eq_iff_iff, sqlSelects_is_uuidArray, matchesIs_uuidArray]
    constructor
    · intro hsql
      obtain ⟨u, hu, hvalue⟩ := hsql
      refine ⟨u, hu, ?_⟩
      by_contra hne
      cases col with
      | none => cases hu
      | some us => exact huuid ⟨us, rfl, u, hu, hvalue, hne⟩
    · intro hpython
      obtain ⟨u, hu, hvalue⟩ := hpython
      exact ⟨u, hu, hvalue ▸ hparse u⟩
  · exact sqlSelects_is hp fun col heq => hcell ⟨col, heq⟩

theorem filterAgrees_of_not_misread {column : FilterColumn}
    (hparse : ∀ u : UuidValue, parseUuid u.str = some u)
    (h : ¬ Misread parseUuid cell value) : FilterAgrees parseUuid column cell value := by
  have his := sqlSelects_is_iff hparse h
  obtain ⟨p, hp⟩ := Option.ne_none_iff_exists'.mp (fun hnone => h (Or.inl hnone))
  have hne : sqlSelects parseUuid cell .ne value = !matchesIs cell value := sqlSelects_ne hp
  have hpresence := @sqlSelects_presence parseUuid cell value
  refine ⟨?_, ?_⟩
  · intro op hadmitted
    rw [matchFilter_of_admitted hadmitted]
    cases op with
    | is => rw [his, Except.ok.injEq, matchesOp]
    | ne => rw [hne, Except.ok.injEq, matchesOp]
    | isnull => rw [hpresence.1, Except.ok.injEq, matchesOp]
    | notnull => rw [hpresence.2, Except.ok.injEq, matchesOp]
  · intro hadmitted
    refine ⟨by rw [hne, his], matchesIs cell value, matchFilter_of_admitted hadmitted, ?_⟩
    exact matchFilter_of_admitted
      ((validateClause_compared rfl).mpr ((validateClause_compared rfl).mp hadmitted))

/-- A list clause selects the same rows in SQL and in memory, and `is` and `ne` split them,
exactly when the operand is not one that SQL misreads. -/
theorem filterAgrees_iff {column : FilterColumn}
    (hparse : ∀ u : UuidValue, parseUuid u.str = some u) :
    FilterAgrees parseUuid column cell value ↔
      (value.length ≤ maxFilterValueChars → ¬ Misread parseUuid cell value) := by
  constructor
  · intro h hlength hmisread
    have hadmitted : validateClause column .ne value = none :=
      (validateClause_compared rfl).mpr hlength
    rcases hmisread with hnone | ⟨us, rfl, u, hu, hvalue, hstr⟩
    · have hsame := h.same .ne hadmitted
      rw [sqlSelects_ne_of_unencodable hnone, matchFilter_of_admitted hadmitted,
        matchesOp,
        matchesIs_of_unencodable hnone] at hsame
      simp at hsame
    · have hsql : sqlSelects parseUuid (.uuidArray (some us)) .is value = true :=
        (sqlSelects_is_uuidArray (some us)).mpr ⟨u, hu, hvalue⟩
      have hpython : matchesIs (.uuidArray (some us)) value = false := by
        rw [← Bool.not_eq_true, matchesIs_uuidArray]
        intro hmatch
        obtain ⟨v, hv, hvstr⟩ := hmatch
        have hparsed := hparse v
        rw [hvstr, hvalue] at hparsed
        exact hstr (Option.some.inj hparsed ▸ hvstr)
      have his : validateClause column .is value = none :=
        (validateClause_compared rfl).mpr hlength
      have hsame := (h.same .is his).mp hsql
      rw [matchFilter_of_admitted his, matchesOp, hpython] at hsame
      cases hsame
  · intro h
    by_cases hlength : value.length ≤ maxFilterValueChars
    · exact filterAgrees_of_not_misread hparse (h hlength)
    · have hrefused : ∀ op, validateClause column op value ≠ none := by
        intro op hadmitted
        unfold validateClause at hadmitted
        split at hadmitted
        next => cases hadmitted
        next =>
          rw [if_pos (Nat.lt_of_not_le hlength)] at hadmitted
          cases hadmitted
      exact ⟨fun op hadmitted => absurd hadmitted (hrefused op),
        fun hadmitted => absurd hadmitted (hrefused .is)⟩

end Cells

instance neZeroSixteen : NeZero 16 := ⟨by decide⟩

def hexValue? (n : Nat) : Option (Fin 16) :=
  if 0x30 ≤ n ∧ n ≤ 0x39 then some (Fin.ofNat 16 (n - 0x30))
  else if 0x41 ≤ n ∧ n ≤ 0x46 then some (Fin.ofNat 16 (n - 0x37))
  else if 0x61 ≤ n ∧ n ≤ 0x66 then some (Fin.ofNat 16 (n - 0x57))
  else none

/-- A reader of UUID texts that takes either case of a digit and any hyphens. -/
def readUuid (value : PyStr) : Option UuidValue :=
  if value.length < 32 ∨ 36 < value.length then none
  else
    match (value.filter fun n => decide (n ≠ 0x2d)).mapM hexValue? with
    | none => none
    | some ds => if h : ds.length = 32 then some ⟨ds, h⟩ else none

theorem hexValue?_hexCode (d : Fin 16) : hexValue? (hexCode d) = some d := by
  revert d
  decide

theorem mapM_hexCode (ds : List (Fin 16)) : (ds.map hexCode).mapM hexValue? = some ds := by
  induction ds with
  | nil => rfl
  | cons d ds ih =>
      rw [List.map_cons, List.mapM_cons, hexValue?_hexCode, ih]
      rfl

theorem UuidValue.length_str (u : UuidValue) : u.str.length = 36 := by
  simp [UuidValue.str, u.length_eq]

theorem UuidValue.filter_str (u : UuidValue) :
    (u.str.filter fun n => decide (n ≠ 0x2d)) = u.digits.map hexCode := by
  have hkeep : ∀ ns : List Nat, (∀ n ∈ ns, n ∈ u.digits.map hexCode) →
      (ns.filter fun n => decide (n ≠ 0x2d)) = ns := by
    intro ns hns
    apply List.filter_eq_self.mpr
    intro n hn
    obtain ⟨d, _, rfl⟩ := List.mem_map.mp (hns n hn)
    have hcode : hexCode d ≠ 0x2d := by
      unfold hexCode
      split <;> omega
    simpa using hcode
  have htake : ∀ k m, ∀ n ∈ ((u.digits.map hexCode).drop k).take m,
      n ∈ u.digits.map hexCode := fun k m n hn =>
    List.mem_of_mem_drop (List.mem_of_mem_take hn)
  have hdash : ([0x2d].filter fun n : Nat => decide (n ≠ 0x2d)) = [] := rfl
  have hjoin : ∀ k m, ((u.digits.map hexCode).drop k).take m ++
      (u.digits.map hexCode).drop (k + m) = (u.digits.map hexCode).drop k := by
    intro k m
    rw [← List.drop_drop]
    exact List.take_append_drop m _
  simp only [UuidValue.str, List.filter_append, hdash, List.append_nil]
  rw [hkeep _ (htake 8 4), hkeep _ (htake 12 4), hkeep _ (htake 16 4),
    hkeep _ (fun n hn => List.mem_of_mem_take hn), hkeep _ (fun n hn => List.mem_of_mem_drop hn)]
  simp only [List.append_assoc]
  rw [hjoin 16 4, hjoin 12 4, hjoin 8 4]
  exact List.take_append_drop 8 _

theorem readUuid_str (u : UuidValue) : readUuid u.str = some u := by
  have hlength := u.length_str
  rw [readUuid, if_neg (by omega), u.filter_str, mapM_hexCode]
  exact dif_pos u.length_eq

def codechangesColumn : FilterColumn :=
  ⟨"experiment_codechanges".toList, true⟩

/-- The UUID `aaaaaaaa-aaaa-aaaa-aaaa-aaaaaaaaaaaa`. -/
def lowerUuid : UuidValue := ⟨List.replicate 32 10, rfl⟩

/-- The same, as a client that writes capitals spells it. -/
def upperSpelling : PyStr :=
  lowerUuid.str.map fun n => if n = 0x61 then 0x41 else n

/-- The column that stores a UUID, asked for the capitals that spell it. -/
theorem filterAgrees_iff_read :
    FilterAgrees readUuid codechangesColumn (.uuidArray (some [lowerUuid])) upperSpelling ↔
      (upperSpelling.length ≤ maxFilterValueChars →
        ¬ Misread readUuid (.uuidArray (some [lowerUuid])) upperSpelling) :=
  filterAgrees_iff readUuid_str

/-- A capital UUID finds the row in SQL under both `is` and `ne`, and not in memory. -/
theorem filter_disagrees :
    validateClause codechangesColumn .is upperSpelling = none ∧
      sqlSelects readUuid (.uuidArray (some [lowerUuid])) .is upperSpelling = true ∧
      sqlSelects readUuid (.uuidArray (some [lowerUuid])) .ne upperSpelling = true ∧
      matchFilter codechangesColumn (.uuidArray (some [lowerUuid])) .is upperSpelling =
        .ok false := by
  refine ⟨rfl, ?_, ?_, ?_⟩
  · decide
  · decide
  · rfl

end Trackinizer
