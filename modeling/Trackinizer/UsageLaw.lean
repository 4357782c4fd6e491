import Trackinizer.Lib.OnceEach
import Trackinizer.UsageLines

namespace Trackinizer.Usage

open OnceEach Unmodeled

/-- Input, output and cache-read tokens. -/
abbrev Meters := Int × Int × Int

def SessionUsage.meters (u : SessionUsage) : Meters :=
  (u.inputTokens, u.outputTokens, u.cacheReadTokens)

def TokenCount.meters (t : TokenCount) : Meters :=
  (t.prompt, t.response, t.cacheRead)

def Report.amount : Report → Meters
  | .spend _ => 0
  | .claude tokens => tokens.meters
  | .codex tokens _ _ => tokens.meters

/-- The request id whose usage a line repeats, if it has one. -/
def Line.key (l : Line) : Option Text :=
  match l.report with
  | .claude _ => if l.request = [] then none else some l.request
  | _ => none

/-- A line of a model call, not of a stated spend. -/
def Line.IsCall (l : Line) : Prop :=
  ∀ usd, l.report ≠ .spend usd

section Tokens

variable {plain : FromPlain} {capability : ModelTable} {today : Nat}
  {formats : List (Nat × Text)} {t t' : Tally} {l : Line} {seen : List Text}

theorem add_meters {tokens : TokenCount} {prompt : Int} {cli : Text}
    (h : add capability today t tokens prompt cli = some t') :
    t'.sums.meters = t.sums.meters + tokens.meters ∧ t'.counted = t.counted := by
  unfold add at h
  split at h
  next =>
    obtain rfl := Option.some.inj h
    exact ⟨rfl, rfl⟩
  next =>
    obtain ⟨price, _, rfl⟩ := Option.map_eq_some_iff.mp h
    exact ⟨rfl, rfl⟩

theorem take_meters (h : take capability today t l = some t')
    (hseen : ∀ k, k ≠ [] → (k ∈ t.counted ↔ k ∈ seen)) (ls : List (Option Text × Meters)) :
    ∃ seen', (∀ k, k ≠ [] → (k ∈ t'.counted ↔ k ∈ seen')) ∧
      t.sums.meters + total (once seen ((l.key, l.report.amount) :: ls)) =
        t'.sums.meters + total (once seen' ls) := by
  have hkeep : ∀ (key : Option Text) (v : Meters) (ys : List (Option Text × Meters)),
      total ((key, v) :: ys) = v + total ys := by
    intro key v ys
    simp [total]
  unfold take at h
  unfold Line.key
  cases hreport : l.report with
  | spend usd =>
      rw [hreport] at h
      obtain rfl := Option.some.inj h
      refine ⟨seen, hseen, ?_⟩
      simp only
      rw [once, hkeep, Report.amount, zero_add]
  | codex tokens prompt window =>
      rw [hreport] at h
      obtain ⟨added, hadd, rfl⟩ := Option.map_eq_some_iff.mp h
      obtain ⟨hmeters, hcounted⟩ := add_meters hadd
      have hsame : (Tally.bare (if window = 0 then added
          else { added with sums := { added.sums with contextWindow := some window } })).counted =
          t.counted ∧ (Tally.bare (if window = 0 then added
          else { added with sums := { added.sums with contextWindow := some window } })).sums.meters =
          t.sums.meters + tokens.meters := by
        split
        next => exact ⟨hcounted, hmeters⟩
        next => exact ⟨hcounted, hmeters⟩
      refine ⟨seen, ?_, ?_⟩
      · rw [hsame.1]
        exact hseen
      · simp only
        rw [hsame.2, once, hkeep, Report.amount, add_assoc]
  | claude tokens =>
      rw [hreport] at h
      simp only at h
      simp only [Report.amount]
      by_cases hempty : l.request = []
      · rw [if_neg (fun hskip => hskip.1 hempty)] at h
        obtain ⟨added, hadd, rfl⟩ := Option.map_eq_some_iff.mp h
        obtain ⟨hmeters, hcounted⟩ := add_meters hadd
        have hcounted' : added.bare.counted = l.request :: t.counted := hcounted
        have hmeters' : added.bare.sums.meters = t.sums.meters + tokens.meters := hmeters
        refine ⟨seen, ?_, ?_⟩
        · intro k hk
          rw [hcounted', List.mem_cons, hempty, ← hseen k hk]
          simp [hk]
        · rw [if_pos hempty, once, hkeep, hmeters', add_assoc]
      · rw [if_neg hempty]
        by_cases hold : l.request ∈ t.counted
        · rw [if_pos ⟨hempty, hold⟩] at h
          obtain rfl := Option.some.inj h
          have hmem : l.request ∈ seen := (hseen _ hempty).mp hold
          refine ⟨l.request :: seen, ?_, ?_⟩
          · intro k hk
            rw [hseen k hk, List.mem_cons]
            constructor
            · exact Or.inr
            · rintro (rfl | h)
              · exact hmem
              · exact h
          · rw [once, if_pos hmem]
        · rw [if_neg (fun hskip => hold hskip.2)] at h
          obtain ⟨added, hadd, rfl⟩ := Option.map_eq_some_iff.mp h
          obtain ⟨hmeters, hcounted⟩ := add_meters hadd
          have hcounted' : added.bare.counted = l.request :: t.counted := hcounted
          have hmeters' : added.bare.sums.meters = t.sums.meters + tokens.meters := hmeters
          have hmem : l.request ∉ seen := fun hmem => hold ((hseen _ hempty).mpr hmem)
          refine ⟨l.request :: seen, ?_, ?_⟩
          · intro k hk
            rw [hcounted', List.mem_cons, List.mem_cons, hseen k hk]
          · rw [once, if_neg hmem, hkeep, hmeters', add_assoc]

theorem takeAll_meters {ls : List Line} (h : ls.foldlM (take capability today) t = some t')
    (hseen : ∀ k, k ≠ [] → (k ∈ t.counted ↔ k ∈ seen)) :
    t'.sums.meters =
      t.sums.meters + total (once seen (ls.map fun l => (l.key, l.report.amount))) := by
  induction ls generalizing t seen with
  | nil =>
      obtain rfl := Option.some.inj h
      simp [once, total]
  | cons l ls ih =>
      rw [List.foldlM_cons] at h
      obtain ⟨next, hone, hrest⟩ := Option.bind_eq_some_iff.mp h
      obtain ⟨seen', hseen', htotal⟩ :=
        take_meters hone hseen (ls.map fun l => (l.key, l.report.amount))
      rw [List.map_cons, htotal]
      exact ih hrest hseen'

/-- A table that knows no model prices no call, and never fails. -/
theorem exists_takeAll (today : Nat) (t : Tally) (ls : List Line) :
    ∃ t', ls.foldlM (take (fun _ _ => none) today) t = some t' := by
  induction ls generalizing t with
  | nil => exact ⟨t, rfl⟩
  | cons l ls ih =>
      have hone : ∃ next, take (fun _ _ => none) today t l = some next := by
        unfold take
        split
        next => exact ⟨_, rfl⟩
        next =>
          split
          next => exact ⟨_, rfl⟩
          next => exact ⟨_, rfl⟩
        next => exact ⟨_, rfl⟩
      obtain ⟨next, hnext⟩ := hone
      obtain ⟨t', ht'⟩ := ih next
      refine ⟨t', ?_⟩
      rw [List.foldlM_cons, hnext]
      exact ht'

end Tokens

section Reading

variable (plain : FromPlain) (formats : List (Nat × Text))

/-- The tokens of a part's usage lines, under the request ids of its own records. -/
def Part.amounts (p : Part) : List (Option Text × Meters) :=
  (p.lines plain formats).map fun l => (l.key, l.report.amount)

/-- The tokens of the usage lines of parts in order, under their own ids and as they are read. -/
def taken (parts : List Part) : List (Taken Text Meters) :=
  (reading plain formats [] [] parts).map fun x => ⟨x.1.key, x.2.key, x.1.report.amount⟩

theorem mem_reading {model request : Text} {parts : List Part} {x : Line × Line}
    (h : x ∈ reading plain formats model request parts) :
    (∃ m r, x.2 = x.1.under m r) ∧ ∃ p ∈ parts, x.1 ∈ p.lines plain formats := by
  induction parts generalizing model request with
  | nil => simp [reading] at h
  | cons p parts ih =>
      rcases List.mem_append.mp h with hfirst | hrest
      · obtain ⟨l, hl, rfl⟩ := List.mem_map.mp hfirst
        exact ⟨⟨model, request, rfl⟩, p, List.mem_cons_self, hl⟩
      · obtain ⟨hunder, q, hq, hmem⟩ := ih hrest
        exact ⟨hunder, q, List.mem_cons_of_mem _ hq, hmem⟩

theorem key_under {l : Line} (m r : Text) (h : l.key ≠ none) : (l.under m r).key = l.key := by
  unfold Line.key at h ⊢
  have hreport : (l.under m r).report = l.report := rfl
  rw [hreport]
  cases hr : l.report with
  | spend usd => rfl
  | codex tokens prompt window => rfl
  | claude tokens =>
      rw [hr] at h
      simp only at h ⊢
      by_cases hempty : l.request = []
      · exact absurd (if_pos hempty) h
      · have hsame : (l.under m r).request = l.request := if_neg hempty
        rw [hsame]

theorem taken_faithful (parts : List Part) : Taken.Faithful (taken plain formats parts) := by
  intro y hy hown
  obtain ⟨x, hx, rfl⟩ := List.mem_map.mp hy
  obtain ⟨⟨m, r, hunder⟩, _⟩ := mem_reading plain formats hx
  simp only [hunder]
  exact key_under m r hown

theorem ofOwn_taken (parts : List Part) :
    Taken.ofOwn (taken plain formats parts) = parts.flatMap (Part.amounts plain formats) := by
  have hown : ∀ model request, (reading plain formats model request parts).map Prod.fst =
      parts.flatMap (Part.lines plain formats) := by
    induction parts with
    | nil => exact fun _ _ => rfl
    | cons p parts ih =>
        intro model request
        have hfst : (Prod.fst ∘ fun l : Line => (l, l.under model request)) = id := rfl
        rw [reading, List.map_append, ih, List.map_map, hfst, List.map_id, List.flatMap_cons]
  have hmap : Taken.ofOwn (taken plain formats parts) =
      ((reading plain formats [] [] parts).map Prod.fst).map
        fun l => (l.key, l.report.amount) := by
    rw [Taken.ofOwn, taken, List.map_map, List.map_map]
    rfl
  rw [hmap, hown, List.map_flatMap]
  rfl

theorem asUnder_taken (parts : List Part) :
    Taken.asUnder (taken plain formats parts) =
      ((reading plain formats [] [] parts).map Prod.snd).map
        fun l => (l.key, l.report.amount) := by
  rw [Taken.asUnder, taken, List.map_map, List.map_map]
  apply List.map_congr_left
  intro x hx
  obtain ⟨⟨m, r, hunder⟩, _⟩ := mem_reading plain formats hx
  simp only [Function.comp_apply, hunder]
  rfl

/-- The token totals of parts read in order. -/
theorem meters_sessionUsage {capability : ModelTable} {today : Nat} {parts : List Part}
    (hnodup : (parts.map Part.number).Nodup) {u : SessionUsage}
    (h : sessionUsage plain capability today formats (parts.flatMap Part.rows) = some u) :
    u.meters = total (once [] (Taken.asUnder (taken plain formats parts))) := by
  rw [sessionUsage_eq plain capability today formats hnodup] at h
  obtain ⟨t, ht, rfl⟩ := Option.map_eq_some_iff.mp h
  have hstart : ∀ k : Text, k ≠ [] → (k ∈ ({} : Tally).counted ↔ k ∈ ([] : List Text)) :=
    fun k _ => Iff.rfl
  have hmeters := takeAll_meters ht hstart
  have hzero : ({} : Tally).sums.meters = 0 := rfl
  rw [hzero, zero_add, ← asUnder_taken] at hmeters
  exact hmeters

theorem exists_sessionUsage (today : Nat) {parts : List Part}
    (hnodup : (parts.map Part.number).Nodup) :
    ∃ u, sessionUsage plain (fun _ _ => none) today formats (parts.flatMap Part.rows) = some u := by
  obtain ⟨t, ht⟩ := exists_takeAll today {} ((reading plain formats [] [] parts).map Prod.snd)
  refine ⟨t.usage, ?_⟩
  rw [sessionUsage_eq plain _ today formats hnodup, ht]
  rfl

end Reading

end Trackinizer.Usage
