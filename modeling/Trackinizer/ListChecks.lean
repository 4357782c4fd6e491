import Trackinizer.FilterAgreement
import Trackinizer.Lib.Regex
import Trackinizer.ListFilters

/-! The membership checks of a live list: which of the ids it does not hold entered it. -/

namespace Trackinizer.Lists

section Server

/-- A stored inquiry, as far as a check asks of it. -/
structure Row where
  id : UuidValue
  kind : InquiryKind
  deriving DecidableEq

/-- The dialect of PostgreSQL, whose `$` is the end of the text. -/
def postgres : Regex.Dialect := ⟨.before []⟩

/-- What the server holds, newest first, and which rows it finds a filter true of. An `id` filter
is `id::text ~ $n`. -/
structure Server where
  rows : List Row
  ids_nodup : (rows.map Row.id).Nodup
  holds : Filter → Row → Bool
  holds_id : ∀ pattern r, Regex.parse postgres pattern = some r → ∀ row,
    holds ⟨"id".toList, .re, pattern⟩ row = r.search (uuidText row.id)

variable (srv : Server)

def Server.matching (kind : InquiryKind) (filters : List Filter) : List Row :=
  srv.rows.filter fun row => decide (row.kind = kind) && filters.all fun f => srv.holds f row

/-- `list_kind`. -/
def Server.listKind (kind : InquiryKind) (limit : Nat) (filters : List Filter) : List Row :=
  (srv.matching kind filters).take limit

/-- `list_inquiries_route`: one block for each distinct kind. -/
def Server.listInquiries (kinds : List InquiryKind) (limit : Nat) (filters : List Filter) :
    List Row :=
  kinds.eraseDups.flatMap fun kind => srv.listKind kind limit filters

end Server

section Client

/-- `CHECK_IDS`. -/
def checkIds : Nat := 63

/-- `WHOLE_IDS`. -/
def wholeIds : Nat := 13

/-- `MAX_FILTER_CHARS`. -/
def maxFilterChars : Nat := 512

/-- `UUID_CHARS`. -/
def uuidChars : Nat := 36

/-- `CHECK_EVERY_MS`. -/
def checkEveryMs : Int := 2000

/-- `text.slice(-width)`, of a positive width. -/
def lastChars (width : Nat) (t : Text) : Text :=
  t.drop (t.length - width)

/-- How much of each id a check of so many names. -/
def idWidth (count : Nat) : Nat :=
  min uuidChars ((maxFilterChars - 2) / count - 1)

def idEnd (count : Nat) (id : UuidValue) : Text :=
  lastChars (idWidth count) (uuidText id)

def idFilter (ids : List UuidValue) : Except String Filter :=
  if checkIds < ids.length then
    .error s!"A membership check holds at most {checkIds} ids, not {ids.length}."
  else
    .ok ⟨"id".toList, .re,
      '(' :: ['|'].intercalate (ids.map (idEnd ids.length)) ++ [')', '$']⟩

/-- The ids a list does not hold, oldest first; those a check by their ends could not settle; and
when the last check was, if there was one. -/
structure Waiting where
  waiting : List UuidValue
  collided : List UuidValue
  lastCheckAt : Option Int

/-- `Set.add`. -/
def setAdd (ids : List UuidValue) (id : UuidValue) : List UuidValue :=
  if id ∈ ids then ids else ids ++ [id]

/-- `Set.delete`. -/
def setDelete (ids : List UuidValue) (id : UuidValue) : List UuidValue :=
  ids.filter fun other => decide (other ≠ id)

/-- How long until the next check may be. -/
def Waiting.wait (s : Waiting) (now : Int) : Int :=
  match s.lastCheckAt with
  | none => 0
  | some last => last + checkEveryMs - now

/-- The ids the next check asks for. -/
def Waiting.checked (s : Waiting) : List UuidValue :=
  if s.collided = [] then s.waiting.take checkIds else s.collided.take wholeIds

/-- Room for rows whose ids end like an asked one's. -/
def Waiting.limit (s : Waiting) : Nat :=
  2 * s.checked.length

/-- What the answer settles of one asked id. -/
def settle (full : Bool) (back : List UuidValue) (s : Waiting) (id : UuidValue) : Waiting :=
  if full && !decide (id ∈ back) then { s with collided := setAdd s.collided id }
  else { s with collided := setDelete s.collided id, waiting := setDelete s.waiting id }

/-- What came of a call: when to call again, and what a check read, with the ids it settled. -/
structure Outcome where
  later : Option Int := none
  taken : Option (List Row × List UuidValue) := none
  failed : Option String := none

/-- `#checkWaiting`. -/
def checkWaiting (srv : Server) (request : ListRequest) (now : Int) (s : Waiting) :
    Waiting × Outcome :=
  if s.waiting = [] then (s, {})
  else if 0 < s.wait now then (s, { later := some (s.wait now) })
  else
    match idFilter s.checked with
    | .error message => ({ s with lastCheckAt := some now }, { failed := some message })
    | .ok withId =>
        let rows := srv.listInquiries request.kinds s.limit (request.filters ++ [withId])
        let full := decide (rows.length = s.limit)
        let s' := s.checked.foldl (settle full (rows.map Row.id)) { s with lastCheckAt := some now }
        (s', { later := if s'.waiting = [] then none else some checkEveryMs
               taken := some (rows, s.checked.filter fun id => decide (id ∉ s'.collided)) })

end Client

section Purpose

variable (srv : Server) (request : ListRequest)

/-- The row with this id matches the list. -/
def Server.InList (id : UuidValue) : Prop :=
  ∃ row ∈ srv.rows, row.id = id ∧ row.kind ∈ request.kinds ∧
    ∀ f ∈ request.filters, srv.holds f row = true

/-- An id that stops waiting was answered for. -/
def Answered (now : Int) (s : Waiting) : Prop :=
  ∀ id ∈ s.waiting, id ∉ (checkWaiting srv request now s).1.waiting →
    (∃ taken, (checkWaiting srv request now s).2.taken = some taken ∧ id ∈ taken.1.map Row.id) ∨
      ¬ srv.InList request id

/-- The filter of a check is one the server takes. -/
def ShortFilter (s : Waiting) : Prop :=
  ∃ f, idFilter s.checked = .ok f ∧ f.value.length ≤ maxFilterChars

/-- Calls, at these times, of a list that nothing else changes. -/
def calls (t : Nat → Int) : Nat → Waiting → Waiting
  | 0, s => s
  | n + 1, s => (checkWaiting srv request (t n) (calls t n s)).1

/-- Calls that go on, however late it is, leave no id waiting. -/
def Drains (s : Waiting) : Prop :=
  ∀ t : Nat → Int, (∀ i now, ∃ j ≥ i, now ≤ t j) →
    ∃ n, ∀ m ≥ n, (calls srv request t m s).waiting = []

/-- The rows of a kind that the check of `s` finds. -/
def hits (s : Waiting) (kind : InquiryKind) : List Row :=
  match idFilter s.checked with
  | .error _ => []
  | .ok withId => srv.matching kind (request.filters ++ [withId])

/-- No asked row that its kind's limit leaves out is left out beside hits of another kind. -/
def Uncrowded (now : Int) (s : Waiting) : Prop :=
  s.waiting ≠ [] → s.wait now ≤ 0 →
    ∀ kind ∈ request.kinds, ∀ row ∈ (hits srv request s kind).drop s.limit,
      row.id ∈ s.checked → ∀ other ∈ request.kinds, other ≠ kind → hits srv request s other = []

end Purpose

end Trackinizer.Lists
