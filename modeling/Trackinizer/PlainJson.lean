import Mathlib.Data.List.Infix
import Trackinizer.Values

namespace Trackinizer

/-- A JSON value; a number is kept as `json.dumps` spells it. -/
inductive PlainTree where
  | null
  | bool (b : Bool)
  | number (spelling : Text)
  | str (s : Text)
  | list (items : List PlainTree)
  | dict (entries : List (Text × PlainTree))

def hexDigit (n : Nat) : Char :=
  if n < 10 then Char.ofNat (0x30 + n) else Char.ofNat (0x57 + n)

/-- `\uXXXX`. -/
def hexEscape (n : Nat) : Text :=
  ['\\', 'u', hexDigit (n / 4096 % 16), hexDigit (n / 256 % 16), hexDigit (n / 16 % 16),
    hexDigit (n % 16)]

/-- One character inside a JSON string, as the ASCII-only encoder writes it. -/
def escaped (c : Char) : Text :=
  if c = '"' then ['\\', '"']
  else if c = '\\' then ['\\', '\\']
  else if c = '\n' then ['\\', 'n']
  else if c = '\r' then ['\\', 'r']
  else if c = '\t' then ['\\', 't']
  else if c.toNat = 0x0c then ['\\', 'f']
  else if c.toNat = 0x08 then ['\\', 'b']
  else if 0x20 ≤ c.toNat ∧ c.toNat ≤ 0x7e then [c]
  else if c.toNat < 0x10000 then hexEscape c.toNat
  else
    hexEscape (0xd800 + (c.toNat - 0x10000) / 0x400) ++
      hexEscape (0xdc00 + (c.toNat - 0x10000) % 0x400)

def quoted (s : Text) : Text :=
  '"' :: (s.flatMap escaped ++ ['"'])

/-- The parts with a comma between each two. -/
def commaJoin : List Text → Text
  | [] => []
  | [part] => part
  | part :: next :: parts => part ++ ',' :: commaJoin (next :: parts)

mutual

/-- `json.dumps` without blanks. -/
def dumps : PlainTree → Text
  | .null => "null".toList
  | .bool true => "true".toList
  | .bool false => "false".toList
  | .number spelling => spelling
  | .str s => quoted s
  | .list items => '[' :: (commaJoin (dumpsItems items) ++ [']'])
  | .dict entries => '{' :: (commaJoin (dumpsEntries entries) ++ ['}'])

def dumpsItems : List PlainTree → List Text
  | [] => []
  | item :: items => dumps item :: dumpsItems items

def dumpsEntries : List (Text × PlainTree) → List Text
  | [] => []
  | (key, value) :: entries => (quoted key ++ ':' :: dumps value) :: dumpsEntries entries

end

/-- `_nul_free`. -/
def nulFree (text : Text) : Text :=
  text.map fun c => if c.toNat = 0 then Char.ofNat 0xfffd else c

/-- One assignment into a `dict`: a key that is there keeps its place. -/
def dictSet (entries : List (Text × PlainTree)) (entry : Text × PlainTree) :
    List (Text × PlainTree) :=
  if entry.1 ∈ entries.map Prod.fst then
    entries.map fun e => if e.1 = entry.1 then entry else e
  else entries ++ [entry]

/-- A `dict` comprehension over its entries. -/
def dictOf (entries : List (Text × PlainTree)) : List (Text × PlainTree) :=
  entries.foldl dictSet []

mutual

/-- `_nul_free_tree`. -/
def nulFreeTree : PlainTree → PlainTree
  | .str s => .str (nulFree s)
  | .dict entries => .dict (dictOf (nulFreeEntries entries))
  | .list items => .list (nulFreeItems items)
  | .null => .null
  | .bool b => .bool b
  | .number spelling => .number spelling

def nulFreeItems : List PlainTree → List PlainTree
  | [] => []
  | item :: items => nulFreeTree item :: nulFreeItems items

def nulFreeEntries : List (Text × PlainTree) → List (Text × PlainTree)
  | [] => []
  | (key, value) :: entries => (nulFree key, nulFreeTree value) :: nulFreeEntries entries

end

/-- The escape every NUL is written as. -/
def nulEscape : Text := hexEscape 0

/-- `_encoded_payload`. -/
def encodedPayload (payload : PlainTree) : Text :=
  if nulEscape <:+: dumps payload then dumps (nulFreeTree payload) else dumps payload

mutual

/-- No object in the tree has a key twice, as no `dict` has. -/
def PlainTree.UniqueKeys : PlainTree → Prop
  | .list items => UniqueKeysItems items
  | .dict entries => (entries.map Prod.fst).Nodup ∧ UniqueKeysEntries entries
  | .null | .bool _ | .number _ | .str _ => True

def UniqueKeysItems : List PlainTree → Prop
  | [] => True
  | item :: items => item.UniqueKeys ∧ UniqueKeysItems items

def UniqueKeysEntries : List (Text × PlainTree) → Prop
  | [] => True
  | (_, value) :: entries => value.UniqueKeys ∧ UniqueKeysEntries entries

end

theorem escaped_nul : escaped (Char.ofNat 0) = nulEscape := by decide

/-- A string that is written without a NUL escape has no NUL in it. -/
theorem nulFree_of_quoted {s : Text} (h : ¬ nulEscape <:+: quoted s) : nulFree s = s := by
  have hnul : ∀ c ∈ s, c.toNat ≠ 0 := by
    intro c hc hzero
    have hchar : c = Char.ofNat 0 := by
      rw [← Char.ofNat_toNat c, hzero]
    obtain ⟨before, after, rfl⟩ := List.append_of_mem hc
    apply h
    refine ⟨'"' :: before.flatMap escaped, after.flatMap escaped ++ ['"'], ?_⟩
    simp [quoted, hchar, escaped_nul]
  rw [nulFree]
  conv_rhs => rw [← List.map_id s]
  apply List.map_congr_left
  intro c hc
  rw [if_neg (hnul c hc), id]

theorem infix_commaJoin {part : Text} {parts : List Text} (h : part ∈ parts) :
    part <:+: commaJoin parts := by
  induction parts with
  | nil => cases h
  | cons first parts ih =>
      cases parts with
      | nil =>
          obtain rfl := List.mem_singleton.mp h
          exact List.infix_refl _
      | cons next parts =>
          rw [commaJoin]
          rcases List.mem_cons.mp h with rfl | hrest
          · exact ⟨[], ',' :: commaJoin (next :: parts), rfl⟩
          · have htail := ih hrest
            exact htail.trans ⟨first ++ [','], [], by simp⟩

theorem infix_wrapped {a b : Char} {part body : Text} (h : part <:+: body) :
    part <:+: a :: (body ++ [b]) := by
  obtain ⟨before, after, rfl⟩ := h
  exact ⟨a :: before, after ++ [b], by simp⟩

/-- Assigning entries with distinct keys appends them. -/
theorem dictOf_eq {entries : List (Text × PlainTree)} (h : (entries.map Prod.fst).Nodup) :
    dictOf entries = entries := by
  have hfold : ∀ {more seen : List (Text × PlainTree)},
      ((seen ++ more).map Prod.fst).Nodup → more.foldl dictSet seen = seen ++ more := by
    intro more
    induction more with
    | nil => simp
    | cons entry more ih =>
        intro seen hnodup
        have hnew : entry.1 ∉ seen.map Prod.fst := by
          intro hmem
          rw [List.map_append, List.nodup_append] at hnodup
          exact hnodup.2.2 _ hmem entry.1 (by simp) rfl
        rw [List.foldl_cons, dictSet, if_neg hnew, ih]
        · simp
        · simpa using hnodup
  exact hfold (by simpa using h)

mutual

/-- A tree written without a NUL escape is left as it is. -/
theorem nulFreeTree_eq : ∀ {t : PlainTree}, t.UniqueKeys → ¬ nulEscape <:+: dumps t →
    nulFreeTree t = t
  | .null, _, _ => rfl
  | .bool _, _, _ => rfl
  | .number _, _, _ => rfl
  | .str s, _, h => by
      rw [nulFreeTree, nulFree_of_quoted h]
  | .list items, hunique, h => by
      rw [nulFreeTree, nulFreeItems_eq hunique]
      intro part hpart hnul
      exact h (hnul.trans (infix_wrapped (infix_commaJoin hpart)))
  | .dict entries, hunique, h => by
      obtain ⟨hkeys, hvalues⟩ := hunique
      rw [nulFreeTree, nulFreeEntries_eq hvalues, dictOf_eq hkeys]
      intro part hpart hnul
      exact h (hnul.trans (infix_wrapped (infix_commaJoin hpart)))

theorem nulFreeItems_eq : ∀ {items : List PlainTree}, UniqueKeysItems items →
    (∀ part ∈ dumpsItems items, ¬ nulEscape <:+: part) → nulFreeItems items = items
  | [], _, _ => rfl
  | item :: items, hunique, h => by
      have hitem := h (dumps item) (by simp [dumpsItems])
      have hitems : ∀ part ∈ dumpsItems items, ¬ nulEscape <:+: part := by
        intro part hpart
        exact h part (by simp [dumpsItems, hpart])
      rw [nulFreeItems, nulFreeTree_eq hunique.1 hitem, nulFreeItems_eq hunique.2 hitems]

theorem nulFreeEntries_eq : ∀ {entries : List (Text × PlainTree)}, UniqueKeysEntries entries →
    (∀ part ∈ dumpsEntries entries, ¬ nulEscape <:+: part) → nulFreeEntries entries = entries
  | [], _, _ => rfl
  | (key, value) :: entries, hunique, h => by
      have hentry := h (quoted key ++ ':' :: dumps value) (by simp [dumpsEntries])
      have hkey : ¬ nulEscape <:+: quoted key := by
        intro hnul
        exact hentry (hnul.trans ⟨[], ':' :: dumps value, rfl⟩)
      have hvalue : ¬ nulEscape <:+: dumps value := by
        intro hnul
        exact hentry (hnul.trans ⟨quoted key ++ [':'], [], by simp⟩)
      have hentries : ∀ part ∈ dumpsEntries entries, ¬ nulEscape <:+: part := by
        intro part hpart
        exact h part (by simp [dumpsEntries, hpart])
      rw [nulFreeEntries, nulFree_of_quoted hkey, nulFreeTree_eq hunique.1 hvalue,
        nulFreeEntries_eq hunique.2 hentries]

end

theorem uniqueKeys_empty : (PlainTree.dict []).UniqueKeys :=
  ⟨List.nodup_nil, trivial⟩

/-- The common path that skips the walk stores what the walk would. -/
theorem encodedPayload_eq {payload : PlainTree} (h : payload.UniqueKeys) :
    encodedPayload payload = dumps (nulFreeTree payload) := by
  unfold encodedPayload
  split
  next => rfl
  next hnul => rw [nulFreeTree_eq h hnul]

end Trackinizer
