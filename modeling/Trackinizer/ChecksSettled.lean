import Mathlib.Data.List.Nodup
import Trackinizer.ListChecks

namespace Trackinizer.Lists

section Ids

variable {u v : UuidValue} {n : Nat}

theorem length_uuidText (u : UuidValue) : (uuidText u).length = uuidChars := by
  rw [uuidText, List.length_map, u.length_str]
  rfl

theorem mem_uuidStr {k : Nat} (h : k ∈ u.str) : k = 0x2d ∨ ∃ d, k = hexCode d := by
  have hcode : k ∈ u.digits.map hexCode → k = 0x2d ∨ ∃ d, k = hexCode d := by
    intro hk
    obtain ⟨d, -, hd⟩ := List.mem_map.mp hk
    exact .inr ⟨d, hd.symm⟩
  simp only [UuidValue.str, List.mem_append, List.mem_singleton] at h
  obtain (((((((h | h) | h) | h) | h) | h) | h) | h) | h := h
  · exact hcode (List.mem_of_mem_take h)
  · exact .inl h
  · exact hcode (List.mem_of_mem_drop (List.mem_of_mem_take h))
  · exact .inl h
  · exact hcode (List.mem_of_mem_drop (List.mem_of_mem_take h))
  · exact .inl h
  · exact hcode (List.mem_of_mem_drop (List.mem_of_mem_take h))
  · exact .inl h
  · exact hcode (List.mem_of_mem_drop h)

/-- No character of an id means anything else in a pattern. -/
theorem uuidText_plain {c : Char} (h : c ∈ uuidText u) : c ∉ Regex.punctuation := by
  have hdigit : ∀ d : Fin 16, Char.ofNat (hexCode d) ∉ Regex.punctuation := by decide
  obtain ⟨k, hk, rfl⟩ := List.mem_map.mp h
  obtain rfl | ⟨d, rfl⟩ := mem_uuidStr hk
  · decide
  · exact hdigit d

theorem uuidText_inj (h : uuidText u = uuidText v) : u = v := by
  have hcodes : ∀ w : UuidValue, (uuidText w).map Char.toNat = w.str := by
    intro w
    have hid : w.str.map (Char.toNat ∘ Char.ofNat) = w.str.map id := by
      apply List.map_congr_left
      intro k hk
      exact toNat_ofNat_of_lt (w.mem_str hk).2
    rw [uuidText, List.map_map, hid, List.map_id]
  have hstr : u.str = v.str := by rw [← hcodes u, h, hcodes v]
  have hread := readUuid_str u
  rw [hstr, readUuid_str v] at hread
  exact (Option.some.inj hread).symm

theorem mul_idWidth_le (hpos : 0 < n) (hn : n ≤ checkIds) : n * (idWidth n + 1) ≤ 510 := by
  have hn' : n ≤ 63 := hn
  have height : 8 ≤ 510 / n := (Nat.le_div_iff_mul_le hpos).mpr (by omega)
  have hwidth : idWidth n + 1 ≤ 510 / n := by
    have hmin : idWidth n ≤ 510 / n - 1 := Nat.min_le_right _ _
    omega
  calc n * (idWidth n + 1) ≤ n * (510 / n) := Nat.mul_le_mul_left n hwidth
    _ ≤ 510 := Nat.mul_div_le 510 n

/-- So few ids are named whole. -/
theorem idWidth_whole (hpos : 0 < n) (hn : n ≤ wholeIds) : idWidth n = uuidChars := by
  have hn' : n ≤ 13 := hn
  have hquot : 39 ≤ 510 / n := (Nat.le_div_iff_mul_le hpos).mpr (by omega)
  have hle : uuidChars ≤ (maxFilterChars - 2) / n - 1 := by
    have hchars : uuidChars = 36 := rfl
    have hmax : (maxFilterChars - 2) / n = 510 / n := rfl
    omega
  exact Nat.min_eq_left hle

theorem length_idEnd (n : Nat) (u : UuidValue) : (idEnd n u).length = idWidth n := by
  have hwidth : idWidth n ≤ uuidChars := Nat.min_le_left _ _
  rw [idEnd, lastChars, List.length_drop, length_uuidText]
  omega

theorem idEnd_whole (hpos : 0 < n) (hn : n ≤ wholeIds) : idEnd n u = uuidText u := by
  rw [idEnd, lastChars, idWidth_whole hpos hn, length_uuidText, Nat.sub_self, List.drop_zero]

theorem idEnd_suffix (n : Nat) (u : UuidValue) : idEnd n u <:+ uuidText u :=
  List.drop_suffix _ _

end Ids

section Filter

variable {ids : List UuidValue}

theorem length_intercalate {w : Nat} {ts : List Text} (hne : ts ≠ [])
    (hw : ∀ t ∈ ts, t.length = w) : (['|'].intercalate ts).length + 1 = ts.length * (w + 1) := by
  induction ts with
  | nil => exact absurd rfl hne
  | cons t ts ih =>
      have ht := hw t (by simp)
      cases ts with
      | nil => simp [List.intercalate, ht]
      | cons u ts =>
          have hrest := ih (by simp) (fun v hv => hw v (by simp [hv]))
          have hcons : ['|'].intercalate (t :: u :: ts) = t ++ '|' :: ['|'].intercalate (u :: ts) := by
            simp [List.intercalate]
          rw [hcons, List.length_append, List.length_cons, List.length_cons, Nat.succ_mul, ht]
          omega

theorem idFilter_ok (hne : ids ≠ []) (hlen : ids.length ≤ checkIds) :
    ∃ f, idFilter ids = .ok f ∧ f.value.length ≤ maxFilterChars ∧
      f = ⟨"id".toList, .re, Regex.group (fun c => [c]) (ids.map (idEnd ids.length)) ++ ['$']⟩ := by
  refine ⟨_, if_neg (Nat.not_lt.mpr hlen), ?_, ?_⟩
  · have hpos := List.length_pos_of_ne_nil hne
    have hends : ∀ t ∈ ids.map (idEnd ids.length), t.length = idWidth ids.length := by
      intro t ht
      obtain ⟨u, -, rfl⟩ := List.mem_map.mp ht
      exact length_idEnd _ u
    have hjoin := length_intercalate (by simpa using hne) hends
    have hbound := mul_idWidth_le hpos hlen
    rw [List.length_map] at hjoin
    have hmax : maxFilterChars = 512 := rfl
    rw [List.length_append, List.length_cons]
    simp only [List.length_cons, List.length_nil]
    omega
  · have hplain : ∀ t : Text, (t.flatMap fun c => [c]) = t := List.flatMap_singleton'
    simp only [Regex.group, Regex.barred, hplain, List.map_id']
    simp

/-- An `id` filter is true of the rows whose ids end as one of its ids does. -/
theorem holds_idFilter (srv : Server) {f : Filter} (hne : ids ≠ []) (h : idFilter ids = .ok f)
    (row : Row) : srv.holds f row = true ↔ ∃ id ∈ ids, idEnd ids.length id <:+ uuidText row.id := by
  have hlen : ids.length ≤ checkIds := by
    apply Nat.not_lt.mp
    intro hlong
    rw [idFilter, if_pos hlong] at h
    cases h
  obtain ⟨f', hf', -, hvalue⟩ := idFilter_ok hne hlen
  obtain rfl := Except.ok.inj (h.symm.trans hf')
  have hspell : ∀ w ∈ ids.map (idEnd ids.length), ∀ c ∈ w, Regex.Spells postgres [c] c := by
    intro w hw c hc
    obtain ⟨u, -, rfl⟩ := List.mem_map.mp hw
    exact Regex.Spells.plain (uuidText_plain (List.mem_of_mem_drop hc))
  obtain ⟨r, hparse, hsearch⟩ :=
    Regex.parse_ending (by simpa using hne) hspell (Regex.Closes.dollar rfl)
  rw [hvalue, srv.holds_id _ r hparse row, hsearch]
  simp

end Filter

section Sets

variable {ids : List UuidValue} {id other : UuidValue}

theorem mem_setAdd : other ∈ setAdd ids id ↔ other ∈ ids ∨ other = id := by
  unfold setAdd
  split
  next h =>
    constructor
    · exact Or.inl
    · intro hor
      obtain hmem | rfl := hor
      · exact hmem
      · exact h
  next => simp

theorem mem_setDelete : other ∈ setDelete ids id ↔ other ∈ ids ∧ other ≠ id := by
  simp [setDelete]

end Sets

section Settle

variable {full : Bool} {back ids : List UuidValue} {s : Waiting} {id : UuidValue}

/-- An id that the answer left out, with no room left in it. -/
def LeftOut (full : Bool) (back : List UuidValue) (id : UuidValue) : Prop :=
  full = true ∧ id ∉ back

theorem leftOut_iff : (full && !decide (id ∈ back)) = true ↔ LeftOut full back id := by
  simp [LeftOut]

theorem mem_settle_waiting {other : UuidValue} : other ∈ (settle full back s id).waiting ↔
    other ∈ s.waiting ∧ (other = id → LeftOut full back id) := by
  unfold settle
  split
  next h =>
    have hleft := leftOut_iff.mp h
    simp [hleft]
  next h =>
    have hback : ¬ LeftOut full back id := fun hleft => h (leftOut_iff.mpr hleft)
    simp [mem_setDelete, hback]

theorem mem_settle_collided {other : UuidValue} : other ∈ (settle full back s id).collided ↔
    if other = id then LeftOut full back id else other ∈ s.collided := by
  unfold settle
  split
  next h =>
    have hleft := leftOut_iff.mp h
    rw [mem_setAdd]
    split
    next heq => simp [heq, hleft]
    next hne => simp [hne]
  next h =>
    have hback : ¬ LeftOut full back id := fun hleft => h (leftOut_iff.mpr hleft)
    rw [mem_setDelete]
    split
    next heq => simp [heq, hback]
    next hne => simp [hne]

/-- After an answer the ids it settled are in neither set; the others are as they were, but those
it had no room for are collided. -/
theorem mem_settled_waiting {other : UuidValue} :
    other ∈ (ids.foldl (settle full back) s).waiting ↔
      other ∈ s.waiting ∧ (other ∈ ids → LeftOut full back other) := by
  induction ids generalizing s with
  | nil => simp
  | cons id ids ih =>
      rw [List.foldl_cons, ih, mem_settle_waiting, and_assoc, and_congr_right_iff]
      intro hother
      constructor
      · intro h hmem
        obtain rfl | hmem := List.mem_cons.mp hmem
        · exact h.1 rfl
        · exact h.2 hmem
      · intro h
        refine ⟨?_, fun hmem => h (List.mem_cons_of_mem _ hmem)⟩
        intro heq
        subst heq
        exact h List.mem_cons_self

theorem mem_settled_collided {other : UuidValue} :
    other ∈ (ids.foldl (settle full back) s).collided ↔
      if other ∈ ids then LeftOut full back other else other ∈ s.collided := by
  induction ids generalizing s with
  | nil => simp
  | cons id ids ih =>
      rw [List.foldl_cons, ih]
      by_cases hmem : other ∈ ids
      · rw [if_pos hmem, if_pos (List.mem_cons_of_mem _ hmem)]
      · rw [if_neg hmem, mem_settle_collided]
        by_cases heq : other = id
        · rw [if_pos heq, if_pos (heq ▸ List.mem_cons_self), heq]
        · rw [if_neg heq, if_neg (by simp [heq, hmem])]

end Settle

section Asked

variable {s : Waiting}

theorem checked_ne_nil (hne : s.waiting ≠ []) : s.checked ≠ [] := by
  unfold Waiting.checked
  split
  next =>
    rw [Ne, List.take_eq_nil_iff, not_or]
    exact ⟨by decide, hne⟩
  next h =>
    rw [Ne, List.take_eq_nil_iff, not_or]
    exact ⟨by decide, h⟩

theorem length_checked (s : Waiting) : s.checked.length ≤ checkIds := by
  have hbound : wholeIds ≤ checkIds := by decide
  unfold Waiting.checked
  split
  next => exact List.length_take_le _ _
  next => exact Nat.le_trans (List.length_take_le _ _) hbound

theorem checked_of_nil (h : s.collided = []) : s.checked = s.waiting.take checkIds :=
  if_pos h

theorem checked_of_ne_nil (h : s.collided ≠ []) : s.checked = s.collided.take wholeIds :=
  if_neg h

theorem length_checked_of_ne_nil (h : s.collided ≠ []) : s.checked.length ≤ wholeIds := by
  rw [checked_of_ne_nil h]
  exact List.length_take_le _ _

end Asked

section Answer

variable {srv : Server} {kinds : List InquiryKind} {filters : List Filter} {limit : Nat}
  {kind : InquiryKind} {row : Row}

theorem mem_matching : row ∈ srv.matching kind filters ↔
    row ∈ srv.rows ∧ row.kind = kind ∧ ∀ f ∈ filters, srv.holds f row = true := by
  simp [Server.matching]

theorem mem_listInquiries : row ∈ srv.listInquiries kinds limit filters ↔
    ∃ kind ∈ kinds, row ∈ (srv.matching kind filters).take limit := by
  simp [Server.listInquiries, Server.listKind]

theorem nodup_rows (srv : Server) : srv.rows.Nodup :=
  srv.ids_nodup.of_map

theorem nodup_matching : (srv.matching kind filters).Nodup :=
  (nodup_rows srv).filter _

theorem row_ext {a b : Row} (ha : a ∈ srv.rows) (hb : b ∈ srv.rows) (h : a.id = b.id) : a = b :=
  List.inj_on_of_nodup_map srv.ids_nodup ha hb h

theorem nodup_listInquiries : (srv.listInquiries kinds limit filters).Nodup := by
  apply List.nodup_flatMap.mpr
  refine ⟨fun kind _ => nodup_matching.sublist (List.take_sublist _ _), ?_⟩
  apply (nodup_eraseDups kinds).imp
  intro a b hab row ha hb
  have hrow := (mem_matching.mp (List.mem_of_mem_take ha)).2.1
  rw [(mem_matching.mp (List.mem_of_mem_take hb)).2.1] at hrow
  exact hab hrow.symm

/-- Beside a block that fills the limit, the answer is of that length when the others are empty. -/
theorem length_listInquiries_iff (hkind : kind ∈ kinds)
    (hfull : (srv.listKind kind limit filters).length = limit) (hpos : 0 < limit) :
    (srv.listInquiries kinds limit filters).length = limit ↔
      ∀ other ∈ kinds, other ≠ kind → srv.matching other filters = [] := by
  have hmem : kind ∈ kinds.eraseDups := List.mem_eraseDups.mpr hkind
  have hperm := List.perm_cons_erase hmem
  have hlen : (srv.listInquiries kinds limit filters).length =
      limit + ((kinds.eraseDups.erase kind).flatMap fun k => srv.listKind k limit filters).length := by
    rw [Server.listInquiries, (hperm.flatMap_right _).length_eq, List.flatMap_cons,
      List.length_append, hfull]
  rw [hlen, Nat.add_eq_left, List.length_eq_zero_iff, List.flatMap_eq_nil_iff]
  have hothers : ∀ other, other ∈ kinds.eraseDups.erase kind ↔ other ∈ kinds ∧ other ≠ kind := by
    intro other
    rw [(nodup_eraseDups kinds).mem_erase_iff, List.mem_eraseDups, and_comm]
  have hempty : ∀ other, srv.listKind other limit filters = [] ↔
      srv.matching other filters = [] := by
    intro other
    rw [Server.listKind, List.take_eq_nil_iff]
    simp [hpos.ne']
  simp only [hothers, hempty, and_imp]

end Answer

end Trackinizer.Lists
