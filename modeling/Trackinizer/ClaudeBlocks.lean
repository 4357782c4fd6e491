import Trackinizer.Lib.Lines
import Trackinizer.UnmodeledFields

namespace Trackinizer.Blocks

open Unmodeled

abbrev Block := ProviderObject

/-- `from_plain` into `int` and into `list[str]`, which take a value of the type as it is. -/
structure FromPlain where
  int : ProviderJson → Int
  texts : ProviderJson → List Text
  int_number : ∀ n, int (.number (.int n)) = n
  texts_list : ∀ ts : List Text, texts (.list (ts.map .str)) = ts

section Source

def isStr : Option ProviderJson → Bool
  | some (.str _) => true
  | _ => false

def isDict : Option ProviderJson → Bool
  | some (.dict _) => true
  | _ => false

/-- `block.get("type") == kind`. -/
def isType (block : Block) (kind : Text) : Bool :=
  match PyDict.get block "type".toList with
  | some (.str s) => decide (s = kind)
  | _ => false

/-- The keys of a block that the record's own fields hold. -/
def emptied (block : Block) (held : List Text) : List Text :=
  held.filter fun key =>
    if key = "input".toList then isDict (PyDict.get block key) else isStr (PyDict.get block key)

/-- `_stencil`. -/
def stencil (block : Block) (held : List Text) : Block :=
  let gone := emptied block held
  let out : Block := block.map fun e => (e.1, if e.1 ∈ gone then .null else e.2)
  let out :=
    if gone = [] then out else PyDict.set out "$held".toList (.list (gone.map .str))
  match PyDict.get block "text".toList with
  | some (.str text) =>
      if "text".toList ∈ gone ∧ '\n' ∈ text then
        PyDict.set out "$lines".toList (.number (.int (text.count '\n' + 1)))
      else out
  | _ => out

/-- `_user_stencil`; an attachment is what `_read_attachment` finds in the block. -/
def userStencil (block : Block) (attached : Bool) : Block :=
  if isType block "tool_result".toList then stencil block ["content".toList]
  else if attached then
    let source :=
      match PyDict.get block "source".toList with
      | some (.dict entries) => entries
      | _ => []
    PyDict.set (stencil block ["text".toList]) "source".toList
      (.dict (stencil source ["data".toList, "media_type".toList]))
  else stencil block ["text".toList]

/-- `_assistant_stencil` of an object. -/
def assistantStencil (block : Block) : Block :=
  let out := stencil block
    (["text", "thinking", "signature", "input", "id", "name"].map String.toList)
  match PyDict.get block "id".toList with
  | some (.str callId) =>
      if isType block "tool_use".toList then PyDict.set out "$call_id".toList (.str callId) else out
  | _ => out

/-- `_restored`. -/
def restored (plain : FromPlain) (block : Block) (key : Text) : Bool :=
  decide (key ∈ ((PyDict.get block "$held".toList).map plain.texts).getD []) ||
    isStr (PyDict.get block key)

/-- `_text_lengths`. -/
def textLengths (plain : FromPlain) (shape : List ProviderJson) : List Int :=
  shape.filterMap fun value =>
    match value with
    | .dict block =>
        if restored plain block "text".toList then
          some (((PyDict.get block "$lines".toList).map plain.int).getD 1)
        else none
    | _ => none

/-- `xs[i:j]`. -/
def slice {α : Type} (xs : List α) (i j : Int) : List α :=
  let place (k : Int) : Nat := (if 0 ≤ k then k else xs.length + k).toNat
  (xs.take (place j)).drop (place i)

/-- The loop of `_split_widths`. -/
def cutLines (lines : List Text) : Int → List Int → List Text
  | _, [] => []
  | offset, width :: widths =>
      List.intercalate ['\n'] (slice lines offset (offset + width)) ::
        cutLines lines (offset + width) widths

/-- `_split_widths`. -/
def splitWidths (content : Option Text) (widths : List Int) : List Text :=
  match content with
  | none => []
  | some content =>
      if widths = [] then [content]
      else if widths.sum ≠ (content.splitOn '\n').length then [content]
      else cutLines (content.splitOn '\n') 0 widths

def textPart (block : Block) : Option Text :=
  match PyDict.get block "text".toList with
  | some (.str text) => some text
  | _ => none

/-- The text parts of a line's blocks, as the readers of both sorts of line take them. -/
def textParts (blocks : List Block) : List Text :=
  blocks.filterMap textPart

/-- The `content` of the message record. -/
def joined (blocks : List Block) : Option Text :=
  if textParts blocks = [] then none else some (List.intercalate ['\n'] (textParts blocks))

/-- `$content_shape` of a user line. -/
def userShape (attached : Block → Bool) (blocks : List Block) : List ProviderJson :=
  blocks.map fun block => .dict (userStencil block (attached block))

/-- The shape of an assistant line. -/
def assistantShape (blocks : List Block) : List ProviderJson :=
  blocks.map fun block => .dict (assistantStencil block)

end Source

/-- A block of text; its other entries are any but the reader's own notes. -/
structure TextBlock where
  entries : Block
  text : Text
  holds : PyDict.get entries "text".toList = some (.str text)
  notResult : isType entries "tool_result".toList = false
  unmarked : PyDict.get entries "$lines".toList = none

/-- The block as claude writes it. -/
def TextBlock.of (text : Text) : TextBlock where
  entries := [("type".toList, .str "text".toList), ("text".toList, .str text)]
  text := text
  holds := rfl
  notResult := rfl
  unmarked := rfl

section Splitting

variable {sep : List Char → List Text} {texts : List Text}

theorem length_splitOn (text : Text) : (text.splitOn '\n').length = text.count '\n' + 1 := by
  induction text with
  | nil => rfl
  | cons c text ih =>
      rw [List.splitOn_cons_eq_if_modifyHead]
      by_cases hc : c = '\n'
      · subst hc
        simp [ih]
      · simp [hc, ih]

/-- The joined blocks have the lines of each, in turn. -/
theorem splitOn_intercalate_newline (hne : texts ≠ []) :
    (List.intercalate ['\n'] texts).splitOn '\n' = texts.flatMap fun t => t.splitOn '\n' := by
  induction texts with
  | nil => exact absurd rfl hne
  | cons t texts ih =>
      cases texts with
      | nil => simp [List.intercalate_singleton]
      | cons u texts =>
          have htail := ih (List.cons_ne_nil u texts)
          rw [List.intercalate_cons_cons, List.append_assoc, List.singleton_append,
            List.splitOn_append_cons_self, htail]
          simp only [List.flatMap_cons]

/-- As many lines as a block has are cut off the lines that begin with its own. -/
theorem cutLines_flatMap (before : List Text) (texts : List Text) :
    cutLines (before ++ texts.flatMap fun t => t.splitOn '\n') before.length
      (texts.map fun t => ((t.count '\n' + 1 : Nat) : Int)) = texts := by
  induction texts generalizing before with
  | nil => rfl
  | cons t texts ih =>
      have hlength := length_splitOn t
      have hslice : slice (before ++ (t :: texts).flatMap fun t => t.splitOn '\n')
          (before.length : Int) (before.length + ((t.count '\n' + 1 : Nat) : Int)) =
            t.splitOn '\n' := by
        have hstart : (0 : Int) ≤ before.length := by omega
        have hstop : (0 : Int) ≤ before.length + ((t.count '\n' + 1 : Nat) : Int) := by omega
        have hplace : ((before.length : Int) + ((t.count '\n' + 1 : Nat) : Int)).toNat =
            before.length + (t.splitOn '\n').length := by omega
        simp only [slice, if_pos hstart, if_pos hstop, hplace, Int.toNat_natCast,
          List.flatMap_cons]
        rw [List.take_append, List.take_of_length_le (by omega)]
        simp
      have hrest := ih (before ++ t.splitOn '\n')
      rw [List.length_append, hlength] at hrest
      rw [List.map_cons, cutLines, hslice, List.intercalate_splitOn, List.flatMap_cons,
        ← List.append_assoc]
      simpa using hrest

theorem splitWidths_intercalate (hne : texts ≠ []) :
    splitWidths (some (List.intercalate ['\n'] texts))
      (texts.map fun t => ((t.count '\n' + 1 : Nat) : Int)) = texts := by
  have hsplit := splitOn_intercalate_newline hne
  have hsum : (texts.map fun t => ((t.count '\n' + 1 : Nat) : Int)).sum =
      ((List.intercalate ['\n'] texts).splitOn '\n').length := by
    rw [hsplit, List.length_flatMap]
    clear hne hsplit
    induction texts with
    | nil => rfl
    | cons t texts ih =>
        have hlength := length_splitOn t
        simp only [List.map_cons, List.sum_cons, ih]
        omega
  have hwidths : (texts.map fun t => ((t.count '\n' + 1 : Nat) : Int)) ≠ [] := by
    simpa using hne
  have hcut := cutLines_flatMap [] texts
  rw [splitWidths, if_neg hwidths, if_neg (not_not.mpr hsum), hsplit]
  simpa using hcut

end Splitting

section Stencils

variable (plain : FromPlain) (b : TextBlock) {held : List Text}

theorem text_mem_emptied (h : "text".toList ∈ held) : "text".toList ∈ emptied b.entries held := by
  have hother : "text".toList ≠ "input".toList := by decide
  rw [emptied, List.mem_filter, if_neg hother, b.holds]
  exact ⟨h, rfl⟩

theorem stencil_held (h : "text".toList ∈ held) :
    PyDict.get (stencil b.entries held) "$held".toList =
      some (.list ((emptied b.entries held).map .str)) := by
  have hmem := text_mem_emptied b h
  have hsome : emptied b.entries held ≠ [] := List.ne_nil_of_mem hmem
  have hother : "$held".toList ≠ "$lines".toList := by decide
  unfold stencil
  rw [b.holds]
  simp only [if_neg hsome]
  split
  · rw [PyDict.get_set, if_neg hother, PyDict.get_set, if_pos rfl]
  · rw [PyDict.get_set, if_pos rfl]

theorem stencil_lines (h : "text".toList ∈ held) :
    PyDict.get (stencil b.entries held) "$lines".toList =
      if '\n' ∈ b.text then some (.number (.int (b.text.count '\n' + 1))) else none := by
  have hmem := text_mem_emptied b h
  have hsome : emptied b.entries held ≠ [] := List.ne_nil_of_mem hmem
  have hother : "$lines".toList ≠ "$held".toList := by decide
  unfold stencil
  rw [b.holds]
  simp only [if_neg hsome, hmem, true_and]
  split
  · rw [PyDict.get_set, if_pos rfl]
  · have hget := PyDict.get_map_entries (d := b.entries) (k := "$lines".toList)
      fun key value => if key ∈ emptied b.entries held then .null else value
    rw [PyDict.get_set, if_neg hother, hget, b.unmarked]
    rfl

/-- What a stencil says of its block's lines, whatever else is set in it. -/
theorem textLengths_cons (out : Block) (shape : List ProviderJson) (h : "text".toList ∈ held)
    (hheld : PyDict.get out "$held".toList = PyDict.get (stencil b.entries held) "$held".toList)
    (hlines : PyDict.get out "$lines".toList =
      PyDict.get (stencil b.entries held) "$lines".toList) :
    textLengths plain (.dict out :: shape) =
      ((b.text.count '\n' + 1 : Nat) : Int) :: textLengths plain shape := by
  have hrestored : restored plain out "text".toList = true := by
    have hmem := text_mem_emptied b h
    rw [restored, hheld, stencil_held b h, Option.map_some, Option.getD_some, plain.texts_list,
      decide_eq_true hmem, Bool.true_or]
  have hcount : ((PyDict.get out "$lines".toList).map plain.int).getD 1 =
      ((b.text.count '\n' + 1 : Nat) : Int) := by
    rw [hlines, stencil_lines b h]
    by_cases hnewline : '\n' ∈ b.text
    · rw [if_pos hnewline, Option.map_some, Option.getD_some, plain.int_number]
      rfl
    · have hzero : b.text.count '\n' = 0 := List.count_eq_zero.mpr hnewline
      rw [if_neg hnewline, hzero]
      rfl
  rw [textLengths, List.filterMap_cons]
  simp only [hrestored, if_true, hcount]
  rfl

theorem textLengths_userShape (attached : Block → Bool) (blocks : List TextBlock) :
    textLengths plain (userShape attached (blocks.map TextBlock.entries)) =
      blocks.map fun b => ((b.text.count '\n' + 1 : Nat) : Int) := by
  induction blocks with
  | nil => rfl
  | cons b blocks ih =>
      have hheld : "text".toList ∈ ["text".toList] := List.mem_singleton_self _
      have hhead := textLengths_cons plain b (userStencil b.entries (attached b.entries))
        (userShape attached (blocks.map TextBlock.entries)) hheld
      rw [ih] at hhead
      apply hhead
      · rw [userStencil, if_neg (by rw [b.notResult]; decide)]
        split
        · have hother : "$held".toList ≠ "source".toList := by decide
          rw [PyDict.get_set, if_neg hother]
        · rfl
      · rw [userStencil, if_neg (by rw [b.notResult]; decide)]
        split
        · have hother : "$lines".toList ≠ "source".toList := by decide
          rw [PyDict.get_set, if_neg hother]
        · rfl

theorem textLengths_assistantShape (blocks : List TextBlock) :
    textLengths plain (assistantShape (blocks.map TextBlock.entries)) =
      blocks.map fun b => ((b.text.count '\n' + 1 : Nat) : Int) := by
  induction blocks with
  | nil => rfl
  | cons b blocks ih =>
      have hheld : "text".toList ∈
          ["text", "thinking", "signature", "input", "id", "name"].map String.toList :=
        List.mem_map_of_mem List.mem_cons_self
      have hhead := textLengths_cons plain b (assistantStencil b.entries)
        (assistantShape (blocks.map TextBlock.entries)) hheld
      rw [ih] at hhead
      have hother : "$held".toList ≠ "$call_id".toList := by decide
      have hother' : "$lines".toList ≠ "$call_id".toList := by decide
      apply hhead
      · unfold assistantStencil
        split
        · split
          · rw [PyDict.get_set, if_neg hother]
          · rfl
        · rfl
      · unfold assistantStencil
        split
        · split
          · rw [PyDict.get_set, if_neg hother']
          · rfl
        · rfl

theorem textParts_entries (blocks : List TextBlock) :
    textParts (blocks.map TextBlock.entries) = blocks.map TextBlock.text := by
  rw [textParts, List.filterMap_map]
  have hpart : textPart ∘ TextBlock.entries = some ∘ TextBlock.text := by
    funext b
    rw [Function.comp_apply, Function.comp_apply, textPart, b.holds]
  rw [hpart, List.filterMap_eq_map]

end Stencils

section RoundTrip

theorem splitWidths_joined (blocks : List TextBlock) :
    splitWidths (joined (blocks.map TextBlock.entries))
      (blocks.map fun b => ((b.text.count '\n' + 1 : Nat) : Int)) = blocks.map TextBlock.text := by
  rw [joined, textParts_entries]
  by_cases hnone : blocks.map TextBlock.text = []
  · rw [if_pos hnone, hnone]
    rfl
  · have hsplit := splitWidths_intercalate hnone
    rw [List.map_map] at hsplit
    rw [if_neg hnone]
    exact hsplit

/-- The joined blocks of a line, of either sort, are split back by its shape. -/
theorem joined_splits_back (plain : FromPlain) (attached : Block → Bool)
    (blocks : List TextBlock) :
    splitWidths (joined (blocks.map TextBlock.entries))
        (textLengths plain (userShape attached (blocks.map TextBlock.entries))) =
          blocks.map TextBlock.text ∧
      splitWidths (joined (blocks.map TextBlock.entries))
        (textLengths plain (assistantShape (blocks.map TextBlock.entries))) =
          blocks.map TextBlock.text := by
  have hjoined := splitWidths_joined blocks
  refine ⟨?_, ?_⟩
  · rw [textLengths_userShape]
    exact hjoined
  · rw [textLengths_assistantShape]
    exact hjoined

/-- Values of the type are taken as they are, and any others give the default. -/
def strict : FromPlain where
  int
    | .number (.int n) => n
    | _ => 1
  texts
    | .list items => items.filterMap ProviderJson.asStr?
    | _ => []
  int_number _ := rfl
  texts_list ts := by
    induction ts with
    | nil => rfl
    | cons t ts ih => exact congrArg (t :: ·) ih

/-- Blocks of which two are empty and one ends with blank lines. -/
def blankBlocks : List TextBlock :=
  ["".toList, "a\n\n".toList, "".toList, "b\n".toList].map TextBlock.of

theorem joined_splits_back_blankBlocks :
    splitWidths (some "\na\n\n\n\nb\n".toList)
        (textLengths strict (userShape (fun _ => false) (blankBlocks.map TextBlock.entries))) =
          ["".toList, "a\n\n".toList, "".toList, "b\n".toList] ∧
      splitWidths (some "\na\n\n\n\nb\n".toList)
        (textLengths strict (assistantShape (blankBlocks.map TextBlock.entries))) =
          ["".toList, "a\n\n".toList, "".toList, "b\n".toList] :=
  joined_splits_back strict (fun _ => false) blankBlocks

end RoundTrip

end Trackinizer.Blocks
