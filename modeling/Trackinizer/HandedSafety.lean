import Mathlib.Data.List.Dedup
import Mathlib.Data.List.Perm.Subperm
import Trackinizer.HandedLines
import Trackinizer.Lib.Draw

namespace Trackinizer.Inboxes

open Draw

section Dicts

variable {κ ν : Type} [DecidableEq κ] {d : List (κ × ν)} {k k' : κ} {v : ν}

theorem get_moveToEnd :
    PyDict.get (moveToEnd d k v) k' = if k' = k then some v else PyDict.get d k' := by
  rw [moveToEnd, PyDict.get, List.lookup_append]
  split
  next h => rw [h, PyDict.lookup_pop_self, Option.none_or, PyDict.lookup_cons_self]
  next h =>
    rw [PyDict.lookup_pop_of_ne h, PyDict.lookup_cons_of_ne h, List.lookup_nil, Option.or_none]
    rfl

theorem keys_pop : (PyDict.pop d k).map Prod.fst = (d.map Prod.fst).filter fun k' => k' ≠ k := by
  rw [PyDict.pop, List.filter_map]
  rfl

theorem keys_moveToEnd :
    (moveToEnd d k v).map Prod.fst = ((d.map Prod.fst).filter fun k' => k' ≠ k) ++ [k] := by
  rw [moveToEnd, List.map_append, keys_pop]
  rfl

/-- Of a dict cut in front, a key is there still or had its place in what was cut. -/
theorem get_drop (hnodup : (d.map Prod.fst).Nodup) (n : Nat) :
    PyDict.get (d.drop n) k = PyDict.get d k ∨
      PyDict.get (d.drop n) k = none ∧ ∀ i, (d.map Prod.fst)[i]? = some k → i < n := by
  by_cases hk : k ∈ (d.map Prod.fst).drop n
  · left
    rw [← List.map_drop] at hk
    obtain ⟨⟨_, v⟩, hitem, rfl⟩ := List.mem_map.mp hk
    have hdrop : ((d.drop n).map Prod.fst).Nodup := by
      rw [List.map_drop]
      exact hnodup.sublist (List.drop_sublist n _)
    rw [(PyDict.mem_iff_get hdrop).mp hitem]
    exact ((PyDict.mem_iff_get hnodup).mp (List.mem_of_mem_drop hitem)).symm
  · right
    constructor
    · rw [PyDict.get, List.lookup_eq_none_iff]
      intro item hitem
      have hmem : item.1 ∈ (d.map Prod.fst).drop n := by
        rw [← List.map_drop]
        exact List.mem_map_of_mem hitem
      simpa using fun h : k = item.1 => hk (h ▸ hmem)
    · intro i hi
      by_contra hle
      apply hk
      rw [List.mem_iff_getElem?]
      refine ⟨i - n, ?_⟩
      rw [List.getElem?_drop, Nat.add_sub_cancel' (by omega)]
      exact hi

end Dicts

section Expiry

variable {lines : List Handed} {now : ℚ}

/-- What has expired stands in front of what has not. -/
theorem expired_append_live (now : ℚ)
    (hsorted : lines.Pairwise fun a b => a.untilSec ≤ b.untilSec) :
    lines.filter (fun line => line.untilSec ≤ now) ++ lines.filter (fun line => now < line.untilSec) =
      lines := by
  induction lines with
  | nil => rfl
  | cons line lines ih =>
    have hcons := List.pairwise_cons.mp hsorted
    by_cases hline : line.untilSec ≤ now
    · have hlive : ¬ now < line.untilSec := not_lt.mpr hline
      rw [List.filter_cons_of_pos (by simpa using hline),
        List.filter_cons_of_neg (by simpa using hlive), List.cons_append, ih hcons.2]
    · have hnone : (line :: lines).filter (fun line => line.untilSec ≤ now) = [] := by
        rw [List.filter_eq_nil_iff]
        intro other hother
        rcases List.mem_cons.mp hother with rfl | hother
        · simpa using hline
        · have hle := hcons.1 other hother
          simpa using lt_of_lt_of_le (not_le.mp hline) hle
      have hall : (line :: lines).filter (fun line => now < line.untilSec) = line :: lines := by
        rw [List.filter_eq_self]
        intro other hother
        rcases List.mem_cons.mp hother with rfl | hother
        · simpa using hline
        · have hle := hcons.1 other hother
          simpa using lt_of_lt_of_le (not_le.mp hline) hle
      rw [hnone, hall, List.nil_append]

/-- The cap cuts nothing live while no more than it keeps is. -/
theorem filter_keepLast {n : Nat} (hsorted : lines.Pairwise fun a b => a.untilSec ≤ b.untilSec)
    (hfits : (lines.filter fun line => now < line.untilSec).length ≤ n) :
    (keepLast lines n).filter (fun line => now < line.untilSec) =
      lines.filter fun line => now < line.untilSec := by
  unfold keepLast
  split
  next => rfl
  next =>
    have hsplit := expired_append_live now hsorted
    have hlength := congrArg List.length hsplit
    rw [List.length_append] at hlength
    generalize hlive : lines.filter (fun line => now < line.untilSec) = live at *
    generalize hexpired : lines.filter (fun line => line.untilSec ≤ now) = expired at *
    rw [← hsplit, List.drop_append_of_le_length (by rw [List.length_append]; omega),
      List.filter_append]
    have hnone : (expired.drop ((expired ++ live).length - n)).filter
        (fun line => now < line.untilSec) = [] := by
      rw [List.filter_eq_nil_iff]
      intro line hline
      have hmem : line ∈ lines.filter (fun line => line.untilSec ≤ now) :=
        hexpired ▸ List.mem_of_mem_drop hline
      have := (List.mem_filter.mp hmem).2
      simpa using this
    have hall : live.filter (fun line => now < line.untilSec) = live := by
      rw [← hlive, List.filter_filter]
      simp
    rw [hnone, hall, List.nil_append]

theorem keepLast_sublist (n : Nat) : (keepLast lines n).Sublist lines := by
  unfold keepLast
  split
  · exact List.Sublist.refl _
  · exact List.drop_sublist _ _

end Expiry

section Settling

variable {p f r : HandedLine → Bool} {history : List HandedLine}

/-- The first entry that passes no longer counts. -/
theorem filter_settleFirst (hsettled : ∀ line : HandedLine, f { line with recorded := true } = false) :
    (settleFirst (fun line => f line && r line) history).filter f = (history.filter f).eraseP r := by
  induction history with
  | nil => rfl
  | cons line history ih =>
    rw [settleFirst]
    by_cases hf : f line
    · by_cases hr : r line
      · simp [hf, hr, hsettled]
      · simp [hf, hr, ih]
    · simp [hf, ih]

/-- Other entries do. -/
theorem filter_settleFirst_other
    (hother : ∀ line, p line → f line = false ∧ f { line with recorded := true } = false) :
    (settleFirst p history).filter f = history.filter f := by
  induction history with
  | nil => rfl
  | cons line history ih =>
    rw [settleFirst]
    by_cases hp : p line
    · simp [hp, hother line hp]
    · rw [if_neg hp, List.filter_cons, List.filter_cons, ih]

theorem map_settleFirst {β : Type} (g : HandedLine → β)
    (hg : ∀ line : HandedLine, g { line with recorded := true } = g line) :
    (settleFirst p history).map g = history.map g := by
  induction history with
  | nil => rfl
  | cons line history ih =>
    rw [settleFirst]
    split
    · rw [List.map_cons, List.map_cons, hg]
    · rw [List.map_cons, List.map_cons, ih]

end Settling

namespace Handout

/-- When each chat was handed its lines. -/
def hands (h : Handout) : List (UUID × ℚ) :=
  h.history.map fun line => (line.chat, line.atSec)

/-- Each line of the one chat has one of the other's that came no earlier. -/
def Behind (h : Handout) (a b : UUID) : Prop :=
  ∀ at₁, (a, at₁) ∈ h.hands → ∃ at₂, (b, at₂) ∈ h.hands ∧ at₁ ≤ at₂

def kept (ttl : ℚ) (line : HandedLine) : Handed :=
  ⟨line.source, line.atSec + ttl⟩

/-- The queue keeps what is outstanding, behind what has expired. -/
structure Inv (h : Handout) : Prop where
  nodup : (h.queue.handed.map Prod.fst).Nodup
  past : ∀ hand ∈ h.hands, hand.2 ≤ h.queue.clock
  behind : (h.queue.handed.map Prod.fst).Pairwise h.Behind
  ordered : ∀ chat, (h.queue.lines chat).Pairwise fun a b => a.untilSec ≤ b.untilSec
  due : ∀ chat, ∀ line ∈ h.queue.lines chat,
    line.untilSec ≤ h.queue.clock + h.queue.handedTtlSec
  live : ∀ chat, ((h.queue.lines chat).filter fun line => h.queue.clock < line.untilSec) =
    (h.outstanding chat).map (kept h.queue.handedTtlSec)

theorem Inv.fresh {q : ChatQueue} (h : q.handed = []) : Inv ⟨q, []⟩ where
  nodup := by simp [h]
  past := by simp [hands]
  behind := by simp [h]
  ordered chat := by simp [ChatQueue.lines, h, PyDict.get]
  due chat := by simp [ChatQueue.lines, h, PyDict.get]
  live chat := by simp [ChatQueue.lines, h, PyDict.get, outstanding]

theorem outstanding_append (q : ChatQueue) (history more : List HandedLine) (chat : UUID) :
    outstanding ⟨q, history ++ more⟩ chat =
      outstanding ⟨q, history⟩ chat ++ outstanding ⟨q, more⟩ chat :=
  List.filter_append ..

/-- What is outstanding hangs on the queue's clock and TTL alone. -/
theorem outstanding_congr {q q' : ChatQueue} (hclock : q'.clock = q.clock)
    (httl : q'.handedTtlSec = q.handedTtlSec) (history : List HandedLine) (chat : UUID) :
    outstanding ⟨q', history⟩ chat = outstanding ⟨q, history⟩ chat := by
  unfold outstanding recent
  rw [hclock, httl]

section Elapse

variable {h : Handout} {now : ℚ}

theorem Inv.elapse (hinv : h.Inv) (hnow : h.queue.clock ≤ now) :
    Inv { h with queue := { h.queue with clock := now } } where
  nodup := hinv.nodup
  past hand hhand := (hinv.past hand hhand).trans hnow
  behind := hinv.behind
  ordered := hinv.ordered
  due chat line hline := by
    have hle := hinv.due chat line hline
    exact hle.trans (add_le_add hnow le_rfl)
  live chat := by
    have hbefore := congrArg (List.filter fun line => now < line.untilSec) (hinv.live chat)
    rw [List.filter_filter, List.filter_map, outstanding, List.filter_filter] at hbefore
    have hleft : ∀ line : Handed,
        (decide (now < line.untilSec) && decide (h.queue.clock < line.untilSec)) =
          decide (now < line.untilSec) := by
      intro line
      by_cases hlive : now < line.untilSec
      · simp [hlive, lt_of_le_of_lt hnow hlive]
      · simp [hlive]
    have hright : ∀ line : HandedLine, ((((fun line => decide (now < line.untilSec)) ∘
        kept h.queue.handedTtlSec) line) &&
          (decide (line.chat = chat) && h.recent line && !line.recorded)) =
        (decide (line.chat = chat) && recent { h with queue := { h.queue with clock := now } } line
          && !line.recorded) := by
      intro line
      by_cases hlive : now < line.atSec + h.queue.handedTtlSec
      · simp [kept, recent, hlive, lt_of_le_of_lt hnow hlive]
      · simp [kept, recent, hlive]
    simp only [hleft, hright] at hbefore
    exact hbefore

end Elapse

section HandOut

variable {lower : String → String} {taker : Option UUID} {q : ChatQueue}
  {history : List HandedLine} {message : Inbound}

@[simp] theorem handLine_clock : (ChatQueue.handLine lower taker q message).clock = q.clock := by
  unfold ChatQueue.handLine
  split <;> rfl

@[simp] theorem handLine_ttl :
    (ChatQueue.handLine lower taker q message).handedTtlSec = q.handedTtlSec := by
  unfold ChatQueue.handLine
  split <;> rfl

@[simp] theorem handLine_queue :
    (ChatQueue.handLine lower taker q message).toInboundQueue = q.toInboundQueue := by
  unfold ChatQueue.handLine
  split <;> rfl

theorem lineOf_none (h : message.context.bind CanvasMessageContext.conversationId = none) :
    lineOf q.clock message = none := by
  rw [lineOf, h]
  rfl

theorem lineOf_some {chat : UUID}
    (h : message.context.bind CanvasMessageContext.conversationId = some chat) :
    lineOf q.clock message = some ⟨chat, message.source, q.clock, false⟩ := by
  rw [lineOf, h]
  rfl

/-- What `handLine` does for a line of a chat, to the lines it keeps. -/
theorem handLine_handed {chat : UUID}
    (h : message.context.bind CanvasMessageContext.conversationId = some chat) :
    (ChatQueue.handLine lower taker q message).handed = moveToEnd q.handed chat
      (keepLast (q.lines chat ++ [⟨message.source, q.clock + q.handedTtlSec⟩]) q.maxPerSession) := by
  simp [ChatQueue.handLine, h]

theorem handLine_lines {chat : UUID}
    (h : message.context.bind CanvasMessageContext.conversationId = some chat) (other : UUID) :
    (ChatQueue.handLine lower taker q message).lines other = if other = chat then
      keepLast (q.lines chat ++ [⟨message.source, q.clock + q.handedTtlSec⟩]) q.maxPerSession
      else q.lines other := by
  rw [ChatQueue.lines, handLine_handed h, get_moveToEnd]
  split
  · rfl
  · rfl

/-- The lines of a chat with the one just handed out. -/
def handedNow (q : ChatQueue) (chat : UUID) (source : Option String) : List Handed :=
  q.lines chat ++ [⟨source, q.clock + q.handedTtlSec⟩]

theorem Inv.handedNow_ordered (hinv : Inv ⟨q, history⟩) (chat : UUID) (source : Option String) :
    (handedNow q chat source).Pairwise fun a b => a.untilSec ≤ b.untilSec := by
  rw [handedNow, List.pairwise_append]
  refine ⟨hinv.ordered chat, List.pairwise_singleton _ _, ?_⟩
  intro line hline last hlast
  rw [List.mem_singleton.mp hlast]
  exact hinv.due chat line hline

theorem Inv.handedNow_live (hinv : Inv ⟨q, history⟩) (chat : UUID) (source : Option String) :
    ((handedNow q chat source).filter fun line => q.clock < line.untilSec) =
      (outstanding ⟨q, history ++ [⟨chat, source, q.clock, false⟩]⟩ chat).map
        (kept q.handedTtlSec) := by
  rw [handedNow, List.filter_append, outstanding_append, List.map_append]
  have hnew : ([⟨source, q.clock + q.handedTtlSec⟩] : List Handed).filter
        (fun line => q.clock < line.untilSec) =
      (outstanding ⟨q, [⟨chat, source, q.clock, false⟩]⟩ chat).map (kept q.handedTtlSec) := by
    by_cases hpositive : q.clock < q.clock + q.handedTtlSec
    · simp [outstanding, recent, kept, hpositive]
    · simp [outstanding, recent, hpositive]
  have hold := hinv.live chat
  rw [hnew]
  exact congrArg (· ++ _) hold

/-- The chat handed a line goes to the end, behind no other. -/
theorem Inv.behind_append (hinv : Inv ⟨q, history⟩) (chat : UUID) (source : Option String)
    {q' : ChatQueue} :
    (((q.handed.map Prod.fst).filter fun k => k ≠ chat) ++ [chat]).Pairwise
      (Behind ⟨q', history ++ [⟨chat, source, q.clock, false⟩]⟩) := by
  have hhands : ∀ hand, hand ∈ hands ⟨q', history ++ [⟨chat, source, q.clock, false⟩]⟩ ↔
      hand ∈ hands ⟨q, history⟩ ∨ hand = (chat, q.clock) := by
    intro hand
    simp [hands]
  rw [List.pairwise_append]
  refine ⟨?_, List.pairwise_singleton _ _, ?_⟩
  · apply ((hinv.behind.sublist List.filter_sublist).imp_of_mem ?_)
    intro a b ha _ hbehind at₁ hat
    have hne := (List.mem_filter.mp ha).2
    rcases (hhands _).mp hat with hold | hnew
    · obtain ⟨at₂, hat₂, hle⟩ := hbehind at₁ hold
      exact ⟨at₂, (hhands _).mpr (Or.inl hat₂), hle⟩
    · have hchat : a = chat := congrArg Prod.fst hnew
      simp [hchat] at hne
  · intro a ha b hb at₁ hat
    have hne := (List.mem_filter.mp ha).2
    rw [List.mem_singleton.mp hb]
    refine ⟨q.clock, (hhands _).mpr (Or.inr rfl), ?_⟩
    rcases (hhands _).mp hat with hold | hnew
    · exact hinv.past _ hold
    · exact (congrArg Prod.snd hnew).le

/-- One line, where its chat has no more outstanding than the queue keeps. -/
theorem Inv.handLine (hinv : Inv ⟨q, history⟩)
    (hfits : ∀ chat, (outstanding ⟨q, history ++ (lineOf q.clock message).toList⟩ chat).length ≤
      q.maxPerSession) :
    Inv ⟨ChatQueue.handLine lower taker q message, history ++ (lineOf q.clock message).toList⟩ := by
  cases hchat : message.context.bind CanvasMessageContext.conversationId with
  | none =>
    rw [lineOf_none hchat, Option.toList_none, List.append_nil]
    have hsame : ChatQueue.handLine lower taker q message = q := by
      simp [ChatQueue.handLine, hchat]
    rwa [hsame]
  | some chat =>
    rw [lineOf_some hchat, Option.toList_some] at hfits ⊢
    have hlines : ∀ other, (ChatQueue.handLine lower taker q message).lines other =
        if other = chat then keepLast (handedNow q chat message.source) q.maxPerSession
        else q.lines other := handLine_lines hchat
    have hordered := hinv.handedNow_ordered chat message.source
    have hlive := hinv.handedNow_live chat message.source
    refine ⟨?_, ?_, ?_, ?_, ?_, ?_⟩
    · rw [handLine_handed hchat, keys_moveToEnd, List.nodup_append]
      refine ⟨hinv.nodup.filter _, List.nodup_singleton _, ?_⟩
      rintro a ha b hb rfl
      have hne := (List.mem_filter.mp ha).2
      simp [List.mem_singleton.mp hb] at hne
    · intro hand hhand
      rw [hands, List.map_append] at hhand
      rw [handLine_clock]
      rcases List.mem_append.mp hhand with hold | hnew
      · exact hinv.past hand hold
      · rw [List.mem_singleton.mp hnew]
    · rw [handLine_handed hchat, keys_moveToEnd]
      exact hinv.behind_append chat message.source
    · intro other
      rw [hlines]
      split
      · exact hordered.sublist (keepLast_sublist _)
      · exact hinv.ordered other
    · intro other line hline
      rw [hlines] at hline
      rw [handLine_clock, handLine_ttl]
      split at hline
      · have hmem := (keepLast_sublist _).subset hline
        rcases List.mem_append.mp hmem with hold | hnew
        · exact hinv.due chat line hold
        · rw [List.mem_singleton.mp hnew]
      · exact hinv.due other line hline
    · intro other
      rw [hlines, handLine_clock, handLine_ttl,
        outstanding_congr handLine_clock handLine_ttl]
      split
      next hsame =>
        subst hsame
        have hcount := hfits other
        rw [filter_keepLast hordered (by rw [hlive, List.length_map]; exact hcount), hlive]
      next hother =>
        have hnone : outstanding ⟨q, [⟨chat, message.source, q.clock, false⟩]⟩ other = [] := by
          simp [outstanding, Ne.symm hother]
        rw [outstanding_append, hnone, List.append_nil]
        exact hinv.live other

theorem foldl_handLine (lower : String → String) (taker : Option UUID) (q : ChatQueue)
    (messages : List Inbound) :
    (messages.foldl (ChatQueue.handLine lower taker) q).clock = q.clock ∧
      (messages.foldl (ChatQueue.handLine lower taker) q).handedTtlSec = q.handedTtlSec ∧
      (messages.foldl (ChatQueue.handLine lower taker) q).toInboundQueue = q.toInboundQueue := by
  induction messages generalizing q with
  | nil => exact ⟨rfl, rfl, rfl⟩
  | cons message messages ih =>
    obtain ⟨hclock, httl, hqueue⟩ := ih (ChatQueue.handLine lower taker q message)
    exact ⟨hclock.trans handLine_clock, httl.trans handLine_ttl, hqueue.trans handLine_queue⟩

theorem lineOf_toList_append (messages : List Inbound) (clock : ℚ) :
    (message :: messages).filterMap (lineOf clock) =
      (lineOf clock message).toList ++ messages.filterMap (lineOf clock) := by
  cases h : lineOf clock message with
  | none => rw [List.filterMap_cons_none h, Option.toList_none, List.nil_append]
  | some line => rw [List.filterMap_cons_some h, Option.toList_some, List.singleton_append]

/-- The lines of one drain, where no chat has more outstanding after it than the queue keeps. -/
theorem Inv.handLines (hinv : Inv ⟨q, history⟩) (lower : String → String) (taker : Option UUID)
    {messages : List Inbound}
    (hfits : ∀ chat, (outstanding ⟨q, history ++ messages.filterMap (lineOf q.clock)⟩ chat).length ≤
      q.maxPerSession) :
    Inv ⟨messages.foldl (ChatQueue.handLine lower taker) q,
      history ++ messages.filterMap (lineOf q.clock)⟩ := by
  induction messages generalizing q history with
  | nil => simpa using hinv
  | cons message messages ih =>
    rw [lineOf_toList_append, ← List.append_assoc] at hfits ⊢
    have hone : Inv ⟨ChatQueue.handLine lower taker q message,
        history ++ (lineOf q.clock message).toList⟩ := by
      apply hinv.handLine
      intro chat
      have hall := hfits chat
      rw [outstanding_append, List.length_append] at hall
      omega
    have hrest := ih hone
    rw [handLine_clock] at hrest
    apply hrest
    intro chat
    rw [outstanding_congr handLine_clock handLine_ttl, handLine_queue]
    exact hfits chat

theorem mem_recentChats {h : Handout} {chat : UUID} : chat ∈ h.recentChats ↔
    ∃ at₁, (chat, at₁) ∈ h.hands ∧ h.queue.clock < at₁ + h.queue.handedTtlSec := by
  simp only [recentChats, List.mem_dedup, List.mem_map, List.mem_filter, hands, recent,
    decide_eq_true_eq, Prod.mk.injEq]
  constructor
  · rintro ⟨line, ⟨hline, hrecent⟩, rfl⟩
    exact ⟨line.atSec, ⟨line, hline, rfl, rfl⟩, hrecent⟩
  · rintro ⟨_, ⟨line, hline, rfl, rfl⟩, hrecent⟩
    exact ⟨line, ⟨hline, hrecent⟩, rfl⟩

theorem outstanding_recent {h : Handout} {chat : UUID} (hsome : h.outstanding chat ≠ []) :
    chat ∈ h.recentChats := by
  obtain ⟨line, hline⟩ := List.exists_mem_of_ne_nil _ hsome
  simp only [outstanding, List.mem_filter, Bool.and_eq_true, decide_eq_true_eq] at hline
  obtain ⟨hmem, ⟨hchat, hrecent⟩, _⟩ := hline
  rw [recentChats, List.mem_dedup]
  exact List.mem_map.mpr ⟨line, List.mem_filter.mpr ⟨hmem, hrecent⟩, hchat⟩

/-- A chat with a line outstanding has none but chats handed one within the TTL behind it. -/
theorem Inv.keys_recent {h : Handout} (hinv : h.Inv) {chat : UUID} {i : Nat}
    (hi : (h.queue.handed.map Prod.fst)[i]? = some chat) (hsome : h.outstanding chat ≠ []) :
    h.queue.handed.length - i ≤ h.recentChats.length := by
  have hchat := outstanding_recent hsome
  have hsub : (h.queue.handed.map Prod.fst).drop i ⊆ h.recentChats := by
    intro other hother
    obtain ⟨hlt, hget⟩ := List.getElem?_eq_some_iff.mp hi
    rw [List.drop_eq_getElem_cons hlt, hget] at hother
    have hpairs := hinv.behind.sublist (List.drop_sublist i _)
    rw [List.drop_eq_getElem_cons hlt, hget, List.pairwise_cons] at hpairs
    rcases List.mem_cons.mp hother with rfl | hother
    · exact hchat
    · obtain ⟨at₁, hat₁, hrecent⟩ := mem_recentChats.mp hchat
      obtain ⟨at₂, hat₂, hle⟩ := hpairs.1 other hother at₁ hat₁
      exact mem_recentChats.mpr ⟨at₂, hat₂, hrecent.trans_le (add_le_add hle le_rfl)⟩
  have hnodup := hinv.nodup.sublist (List.drop_sublist i _)
  have hlength := (hnodup.subperm hsub).length_le
  rwa [List.length_drop, List.length_map] at hlength

/-- The chats put out hold nothing outstanding while no more than the queue keeps were handed a line
within the TTL. -/
theorem Inv.evict (hinv : Inv ⟨q, history⟩)
    (hfits : (recentChats ⟨q, history⟩).length ≤ q.maxHandedChats)
    (turns : List ((UUID × String) × ℚ)) :
    Inv ⟨{ q with
      handed := q.handed.drop (q.handed.length - q.maxHandedChats), turns := turns }, history⟩ := by
  have hlines : ∀ chat, (ChatQueue.lines { q with
      handed := q.handed.drop (q.handed.length - q.maxHandedChats), turns := turns } chat) =
        q.lines chat ∨
      (ChatQueue.lines { q with
        handed := q.handed.drop (q.handed.length - q.maxHandedChats), turns := turns } chat) = [] ∧
        (outstanding ⟨q, history⟩ chat) = [] := by
    intro chat
    rcases get_drop (k := chat) hinv.nodup (q.handed.length - q.maxHandedChats) with hsame | hcut
    · exact Or.inl (congrArg (Option.getD · []) hsame)
    · right
      refine ⟨congrArg (Option.getD · []) hcut.1, ?_⟩
      by_contra hsome
      have hold := hinv.live chat
      cases hget : PyDict.get q.handed chat with
      | none =>
        have hlines : q.lines chat = [] := congrArg (Option.getD · []) hget
        simp only [hlines, List.filter_nil] at hold
        exact hsome (List.map_eq_nil_iff.mp hold.symm)
      | some lines =>
        have hkey : chat ∈ q.handed.map Prod.fst :=
          List.mem_map.mpr ⟨_, PyDict.mem_of_get hget, rfl⟩
        obtain ⟨i, hi⟩ := List.mem_iff_getElem?.mp hkey
        have hbefore := hcut.2 i hi
        have hrecent := hinv.keys_recent hi hsome
        simp only at hrecent
        omega
  refine ⟨?_, hinv.past, ?_, ?_, ?_, ?_⟩
  · simp only [List.map_drop]
    exact hinv.nodup.sublist (List.drop_sublist _ _)
  · simp only [List.map_drop]
    exact hinv.behind.sublist (List.drop_sublist _ _)
  · intro chat
    rcases hlines chat with hsame | ⟨hnone, _⟩
    · rw [hsame]
      exact hinv.ordered chat
    · rw [hnone]
      exact List.Pairwise.nil
  · intro chat line hline
    rcases hlines chat with hsame | ⟨hnone, _⟩
    · rw [hsame] at hline
      exact hinv.due chat line hline
    · simp [hnone] at hline
  · intro chat
    rcases hlines chat with hsame | ⟨hnone, hempty⟩
    · rw [hsame]
      exact hinv.live chat
    · rw [hnone]
      have hmap := congrArg (List.map (kept q.handedTtlSec)) hempty
      exact hmap.symm

theorem Inv.handOut (hinv : Inv ⟨q, history⟩) {messages : List Inbound}
    (hfits : BelowCaps ⟨q.handOut lower messages taker,
      history ++ messages.filterMap (lineOf q.clock)⟩) :
    Inv ⟨q.handOut lower messages taker, history ++ messages.filterMap (lineOf q.clock)⟩ := by
  obtain ⟨hclock, httl, hqueue⟩ := foldl_handLine lower taker q messages
  have hclock' : (q.handOut lower messages taker).clock = q.clock := hclock
  have httl' : (q.handOut lower messages taker).handedTtlSec = q.handedTtlSec := httl
  obtain ⟨hchats, hrecent⟩ := hfits
  have hcaps : ∀ chat, (outstanding ⟨q, history ++ messages.filterMap (lineOf q.clock)⟩ chat).length ≤
      q.maxPerSession := by
    intro chat
    by_cases hsome : outstanding ⟨q, history ++ messages.filterMap (lineOf q.clock)⟩ chat = []
    · rw [hsome]
      exact Nat.zero_le _
    · have hkept := hchats chat (outstanding_recent (by
        rw [outstanding_congr hclock' httl']
        exact hsome))
      rw [outstanding_congr hclock' httl'] at hkept
      exact hkept.trans_eq (congrArg InboundQueue.maxPerSession hqueue)
  have hlines := hinv.handLines lower taker hcaps
  exact hlines.evict hrecent _

end HandOut

section Recorded

variable {lower : String → String} {h : Handout} {chat : UUID} {senders : List String}

def lineKey (lower : String → String) (line : Handed) : String :=
  posterOf lower line.source

/-- What `recorded` leaves of the lines kept of its chat. -/
theorem recorded_fold (lines : List Handed) :
    senders.foldl (fun handed sender => handed.eraseP fun line =>
        posterOf lower line.source = lower sender) lines =
      draw (lineKey lower) (fun k => (senders.map lower).count k) lines := by
  rw [← foldl_eraseP (lineKey lower), List.foldl_map]
  rfl

theorem recorded_lines (q : ChatQueue) (other : UUID) :
    (q.recorded lower chat senders).lines other = if other = chat then
      draw (lineKey lower) (fun k => (senders.map lower).count k) (q.lines chat)
      else q.lines other := by
  unfold ChatQueue.recorded
  simp only [recorded_fold]
  rw [ChatQueue.lines]
  by_cases hnone : draw (lineKey lower) (fun k => (senders.map lower).count k) (q.lines chat) = []
  · simp only [hnone, if_true]
    rw [PyDict.get_pop]
    split
    · rfl
    · rfl
  · simp only [hnone, if_false]
    rw [PyDict.get_set]
    split
    · rfl
    · rfl

/-- The lines outstanding after a call of `recorded`. -/
theorem outstanding_settle (other : UUID) :
    outstanding ⟨h.queue.recorded lower chat senders, h.settle lower chat senders⟩ other =
      if other = chat then draw (fun line => posterOf lower line.source)
        (fun k => (senders.map lower).count k) (h.outstanding chat)
      else h.outstanding other := by
  have hfold := foldl_eraseP (fun line : HandedLine => posterOf lower line.source)
    (h.outstanding chat) (senders.map lower)
  rw [← hfold, List.foldl_map]
  unfold settle
  induction senders using List.reverseRecOn with
  | nil =>
    split
    next hsame => rw [hsame]; rfl
    next => rfl
  | append_singleton senders sender ih =>
    have ih := ih (by rw [foldl_eraseP])
    rw [List.foldl_append, List.foldl_append, List.foldl_cons, List.foldl_nil, List.foldl_cons,
      List.foldl_nil]
    by_cases hsame : other = chat
    · subst hsame
      rw [if_pos rfl] at ih ⊢
      rw [← ih]
      exact filter_settleFirst fun _ => by simp
    · rw [if_neg hsame] at ih ⊢
      rw [← ih]
      apply filter_settleFirst_other
      intro line hline
      simp only [Bool.and_eq_true, decide_eq_true_eq] at hline
      have hother : line.chat ≠ other := hline.1.1.1 ▸ Ne.symm hsame
      simp [hother]

theorem hands_settle : hands ⟨h.queue.recorded lower chat senders, h.settle lower chat senders⟩ =
    h.hands := by
  unfold settle hands
  induction senders using List.reverseRecOn with
  | nil => rfl
  | append_singleton senders sender ih =>
    rw [List.foldl_append, List.foldl_cons, List.foldl_nil]
    simp only
    rw [map_settleFirst _ fun _ => rfl]
    exact ih

theorem keptOf_expired (sender : String) : h.keptOf lower chat sender true =
    tally (lineKey lower) ((h.queue.lines chat).filter fun line => line.untilSec ≤ h.queue.clock)
      (lower sender) := by
  rw [keptOf, tally, List.countP_filter]
  apply List.countP_congr
  intro line _
  by_cases hkey : posterOf lower line.source = lower sender
  · simp [lineKey, hkey]
  · simp [lineKey, hkey]

theorem keptOf_live (sender : String) : h.keptOf lower chat sender false =
    tally (lineKey lower) ((h.queue.lines chat).filter fun line => h.queue.clock < line.untilSec)
      (lower sender) := by
  rw [keptOf, tally, List.countP_filter]
  apply List.countP_congr
  intro line _
  by_cases hkey : posterOf lower line.source = lower sender
  · simp [lineKey, hkey]
  · simp [lineKey, hkey]

/-- Recorded on time, no expired line is taken in a live one's place. -/
theorem Inv.recorded_live (hinv : h.Inv) (htime : h.OnTime lower (.recorded chat senders)) :
    ((draw (lineKey lower) (fun k => (senders.map lower).count k) (h.queue.lines chat)).filter
        fun line => h.queue.clock < line.untilSec) =
      (draw (fun line => posterOf lower line.source) (fun k => (senders.map lower).count k)
        (h.outstanding chat)).map (kept h.queue.handedTtlSec) := by
  have hsplit := expired_append_live h.queue.clock (hinv.ordered chat)
  have hstale := draw_stale (lineKey lower) (fun k => (senders.map lower).count k)
    ((h.queue.lines chat).filter fun line => line.untilSec ≤ h.queue.clock)
    ((h.queue.lines chat).filter fun line => h.queue.clock < line.untilSec) (by
      intro k
      by_cases hk : k ∈ senders.map lower
      · obtain ⟨sender, hsender, rfl⟩ := List.mem_map.mp hk
        have hcase := htime sender hsender
        rw [keptOf_expired, keptOf_live] at hcase
        exact Or.inr hcase
      · exact Or.inl (List.count_eq_zero.mpr hk))
  have hexpired : (draw (lineKey lower) (fun k => (senders.map lower).count k)
      ((h.queue.lines chat).filter fun line => line.untilSec ≤ h.queue.clock)).filter
        (fun line => h.queue.clock < line.untilSec) = [] := by
    rw [List.filter_eq_nil_iff]
    intro line hline
    have hpassed := (List.mem_filter.mp (draw_sublist.subset hline)).2
    simpa using hpassed
  have hlive : (draw (lineKey lower) (fun k => (senders.map lower).count k)
      ((h.queue.lines chat).filter fun line => h.queue.clock < line.untilSec)).filter
        (fun line => h.queue.clock < line.untilSec) =
      draw (lineKey lower) (fun k => (senders.map lower).count k)
        ((h.queue.lines chat).filter fun line => h.queue.clock < line.untilSec) := by
    rw [List.filter_eq_self]
    intro line hline
    exact (List.mem_filter.mp (draw_sublist.subset hline)).2
  calc _ = (draw (lineKey lower) (fun k => (senders.map lower).count k)
          ((h.queue.lines chat).filter (fun line => line.untilSec ≤ h.queue.clock) ++
            (h.queue.lines chat).filter fun line => h.queue.clock < line.untilSec)).filter
          (fun line => h.queue.clock < line.untilSec) := by rw [hsplit]
    _ = draw (lineKey lower) (fun k => (senders.map lower).count k)
          ((h.queue.lines chat).filter fun line => h.queue.clock < line.untilSec) := by
      rw [draw_append, List.filter_append, hexpired, List.nil_append, hstale, hlive]
    _ = _ := by
      rw [hinv.live chat, draw_map]
      rfl

theorem Inv.recorded (hinv : h.Inv) (htime : h.OnTime lower (.recorded chat senders)) :
    Inv ⟨h.queue.recorded lower chat senders, h.settle lower chat senders⟩ := by
  have hkeys : ((h.queue.recorded lower chat senders).handed.map Prod.fst).Sublist
      (h.queue.handed.map Prod.fst) := by
    unfold ChatQueue.recorded
    simp only [recorded_fold]
    split
    next =>
      rw [keys_pop]
      exact List.filter_sublist
    next hsome =>
      have hkey : (h.queue.handed.lookup chat).isSome := by
        by_contra hnone
        have hget : PyDict.get h.queue.handed chat = none := Option.not_isSome_iff_eq_none.mp hnone
        simp [ChatQueue.lines, hget, draw] at hsome
      rw [PyDict.keys_set hkey]
  have hsublist : ∀ other, ((h.queue.recorded lower chat senders).lines other).Sublist
      (h.queue.lines other) := by
    intro other
    rw [recorded_lines]
    split
    next hsame =>
      rw [hsame]
      exact draw_sublist
    next => exact List.Sublist.refl _
  refine ⟨hinv.nodup.sublist hkeys, ?_, ?_, ?_, ?_, ?_⟩
  · rw [hands_settle]
    exact hinv.past
  · have hbehind := hinv.behind.sublist hkeys
    unfold Behind at hbehind ⊢
    rw [hands_settle]
    exact hbehind
  · exact fun other => (hinv.ordered other).sublist (hsublist other)
  · exact fun other line hline => hinv.due other line ((hsublist other).subset hline)
  · intro other
    rw [recorded_lines, outstanding_settle]
    split
    next hsame =>
      exact hinv.recorded_live htime
    next => exact hinv.live other

end Recorded

section Runs

variable {lower : String → String} {h h' : Handout}

theorem Inv.accounted (hinv : h.Inv) : h.Accounted lower where
  counted chat sender := by
    have hsources : ((h.queue.lines chat).filter fun line => h.queue.clock < line.untilSec).map
        Handed.source = (h.outstanding chat).map HandedLine.source := by
      rw [hinv.live chat, List.map_map]
      rfl
    rw [ChatQueue.conversationSenders, hsources, timesListed, List.countP_append]
    rfl
  none_remains chat hrecorded := by
    have hnone : h.outstanding chat = [] := by
      rw [outstanding, List.filter_eq_nil_iff]
      intro line hline
      by_cases hcounts : line.chat = chat ∧ h.recent line
      · simp [hcounts.1, hcounts.2, hrecorded line hline hcounts.1 hcounts.2]
      · simp only [not_and, Bool.not_eq_true] at hcounts
        by_cases hchat : line.chat = chat
        · simp [hcounts hchat]
        · simp [hchat]
    rw [ChatQueue.conversationSenders, hinv.live chat, hnone, List.map_nil, List.map_nil,
      List.append_nil]

theorem Inv.step {a : Act} (hinv : h.Inv)
    (hallowed : (∀ after ∈ h.step lower a, after.BelowCaps) ∧ h.OnTime lower a)
    (hstep : h.step lower a = some h') : h'.Inv := by
  cases a with
  | handOut messages taker =>
    have hcaps := hallowed.1 h' hstep
    cases hstep
    exact hinv.handOut hcaps
  | recorded chat senders =>
    cases hstep
    exact hinv.recorded hallowed.2
  | elapse now =>
    simp only [Handout.step] at hstep
    split at hstep
    next hnow =>
      cases hstep
      exact hinv.elapse hnow
    next => cases hstep

/-- In every run below the caps whose calls of `recorded` are on time, the senders of a chat are
those of the lines outstanding, each once for each. -/
theorem handed_accounted {q : ChatQueue} (hfresh : q.handed = []) {acts : List Act}
    (hrun : Trace.run (step lower) ⟨q, []⟩ acts = some h)
    (hcaps : Trace.Along (step lower) (fun h a => ∀ after ∈ h.step lower a, after.BelowCaps)
      ⟨q, []⟩ acts)
    (htime : Trace.Along (step lower) (OnTime lower) ⟨q, []⟩ acts) : h.Accounted lower := by
  have hinv := Trace.run_keeps_along (I := fun _ h => h.Inv) (Inv.fresh hfresh)
    (fun hinv hallowed hstep => hinv.step hallowed hstep) (hcaps.and htime) hrun
  exact hinv.accounted

def asciiLower (s : String) : String :=
  String.ofList (s.toList.map Char.toLower)

def science : UUID := 7

def asked (source : String) : Inbound where
  body := "q"
  source := some source
  context := some { conversationId := some science }

instance (h : Handout) : Decidable h.BelowCaps :=
  inferInstanceAs (Decidable (_ ∧ _))

instance (lower : String → String) (h : Handout) (a : Act) : Decidable (h.OnTime lower a) :=
  match a with
  | .recorded _ _ => inferInstanceAs (Decidable (∀ _ ∈ _, _))
  | .handOut _ _ => isTrue trivial
  | .elapse _ => isTrue trivial

/-- A line that was never recorded expires; the next one of its sender is recorded for the run of
it that failed. -/
def recordedLate : List Act :=
  [.handOut [asked "Bob"] (some 3), .elapse 600, .handOut [asked "bob", asked "ada"] none,
    .recorded science ["bob", "bob"], .recorded science ["ADA"]]

theorem handed_accounted_expired : ∃ h, Trace.run (step asciiLower) ⟨{}, []⟩ recordedLate = some h ∧
    h.Accounted asciiLower := by
  obtain ⟨h, hrun⟩ : ∃ h, Trace.run (step asciiLower) ⟨{}, []⟩ recordedLate = some h :=
    Option.isSome_iff_exists.mp (by decide +kernel)
  exact ⟨h, hrun, handed_accounted rfl hrun (by decide +kernel) (by decide +kernel)⟩

/-- One call of `recorded` for two lines of a sender, of which one has expired. -/
def leftover : List Act :=
  [.handOut [asked "bob"] none, .elapse 600, .handOut [asked "bob"] none,
    .recorded science ["bob"]]

theorem not_handed_accounted : ∃ h, Trace.run (step asciiLower) ⟨{}, []⟩ leftover = some h ∧
    Trace.Along (step asciiLower) (fun h a => ∀ after ∈ h.step asciiLower a, after.BelowCaps)
      ⟨{}, []⟩ leftover ∧
    h.queue.conversationSenders science = [some "bob"] ∧ ¬ h.Accounted asciiLower := by
  obtain ⟨h, hrun⟩ : ∃ h, Trace.run (step asciiLower) ⟨{}, []⟩ leftover = some h :=
    Option.isSome_iff_exists.mp (by decide +kernel)
  have hend : (Trace.run (step asciiLower) ⟨{}, []⟩ leftover).any (fun h =>
      decide (∀ line ∈ h.history, line.chat = science → h.recent line → line.recorded) &&
        decide (h.queue.queuedSenders science = []) &&
        decide (h.queue.conversationSenders science = [some "bob"])) := by decide +kernel
  simp only [hrun, Option.any_some, Bool.and_eq_true, decide_eq_true_eq] at hend
  obtain ⟨⟨hall, hqueued⟩, hlisted⟩ := hend
  refine ⟨h, hrun, by decide +kernel, hlisted, fun haccounted => ?_⟩
  have hnone := haccounted.none_remains science hall
  rw [hqueued, hlisted] at hnone
  cases hnone

end Runs

end Handout

end Trackinizer.Inboxes
