import Trackinizer.BootSlots

namespace Trackinizer.BootSlots

section Fields

variable {s : System} {p q i j : Nat} {phase : Phase} {d : Option SlotDir}

@[simp] theorem put_slots : (s.put p phase).slots = s.slots := rfl
@[simp] theorem put_now : (s.put p phase).now = s.now := rfl
@[simp] theorem put_claims : (s.put p phase).claims = s.claims := rfl
@[simp] theorem put_removed : (s.put p phase).removed = s.removed := rfl
@[simp] theorem setSlot_now : (s.setSlot i d).now = s.now := rfl
@[simp] theorem setSlot_claims : (s.setSlot i d).claims = s.claims := rfl
@[simp] theorem setSlot_procs : (s.setSlot i d).procs = s.procs := rfl
@[simp] theorem setSlot_removed : (s.setSlot i d).removed = s.removed := rfl

theorem put_phase : ((s.put p phase).procs q).phase = if q = p then phase else (s.procs q).phase := by
  unfold System.put
  by_cases h : q = p
  · subst h
    simp
  · simp [h]

theorem put_alive : ((s.put p phase).procs q).alive = (s.procs q).alive := by
  unfold System.put
  by_cases h : q = p
  · subst h
    simp
  · simp [h]

theorem setSlot_slots : (s.setSlot i d).slots j = if j = i then d else s.slots j := by
  unfold System.setSlot
  by_cases h : j = i
  · subst h
    simp
  · simp [h]

end Fields

section Invariant

variable {limit stale : Nat} {s s' : System} {p q : Nat} {phase : Phase} {c : BootSlot}

/-- A claim's directory stands, or the claim is old. -/
def Stands (stale : Nat) (s : System) (c : BootSlot) : Prop :=
  (∃ d, s.slots c.slot = some d ∧ d.token = c.token ∧ d.claimed = c.claimed) ∨
    c.claimed + stale < s.now

/-- What a process knows where it stands. -/
def Phase.Sound (limit stale : Nat) (s : System) : Phase → Prop
  | .idle => True
  | .trying i => i < limit
  | .timing i => i < limit
  | .aging i read => i < limit ∧ read ≤ s.now
  | .reclaiming i seen => i < limit ∧ seen < s.claims ∧
      ∀ d, s.slots i = some d → d.token = seen → d.claimed + stale < s.now
  | .stamping c => c.slot < limit ∧ c.token < s.claims ∧ Stands stale s c
  | .holding c => c.slot < limit ∧ c.token < s.claims ∧ Stands stale s c
  | .removing c => c.slot < limit ∧ c.token < s.claims ∧ Stands stale s c
  | .failed => False

structure System.Inv (limit stale : Nat) (s : System) : Prop where
  dirs : ∀ i d, s.slots i = some d → d.claimed ≤ d.mtime ∧ d.mtime ≤ s.now ∧ d.token < s.claims
  sound : ∀ p, (s.procs p).phase.Sound limit stale s
  tokens : ∀ p q c c', (s.procs p).phase.claim = some c → (s.procs q).phase.claim = some c' →
    c.token = c'.token → p = q
  removed : ∀ r ∈ s.removed, r.time < r.dir.claimed + stale → r.release = some r.dir.token
  fresh : ∃ n, ∀ p, n ≤ p → (s.procs p).phase = .idle ∧ (s.procs p).alive = true

/-- What a step does to the directories: one stays, or is old, or is the one that a release
removes; and what is there was there, or is new. -/
structure Moves (stale : Nat) (own : Option Nat) (s s' : System) : Prop where
  now : s.now ≤ s'.now
  claims : s.claims ≤ s'.claims
  kept : ∀ i d, s.slots i = some d →
    (∃ d', s'.slots i = some d' ∧ d'.token = d.token ∧ d'.claimed = d.claimed) ∨
      d.claimed + stale < s.now ∨ own = some d.token
  old : ∀ i d', s'.slots i = some d' →
    (∃ d, s.slots i = some d ∧ d.token = d'.token ∧ d.claimed = d'.claimed) ∨ s.claims ≤ d'.token

theorem Stands.moves {own : Option Nat} (hmoves : Moves stale own s s') (h : Stands stale s c)
    (hown : own ≠ some c.token) : Stands stale s' c := by
  have hnow := hmoves.now
  rcases h with ⟨d, hd, htoken, hclaimed⟩ | hold
  · rcases hmoves.kept _ d hd with ⟨d', hd', htoken', hclaimed'⟩ | hold | hgone
    · exact Or.inl ⟨d', hd', htoken'.trans htoken, hclaimed'.trans hclaimed⟩
    · exact Or.inr (by omega)
    · exact absurd (hgone.trans (congrArg some htoken)) hown
  · exact Or.inr (by omega)

theorem Phase.Sound.moves {own : Option Nat} (hmoves : Moves stale own s s')
    (h : phase.Sound limit stale s) (hown : ∀ c, phase.claim = some c → own ≠ some c.token) :
    phase.Sound limit stale s' := by
  have hnow := hmoves.now
  have hclaims := hmoves.claims
  cases phase with
  | idle => trivial
  | trying i => exact h
  | timing i => exact h
  | aging i read => exact ⟨h.1, h.2.trans hnow⟩
  | reclaiming i seen =>
      obtain ⟨hi, hseen, hold⟩ := h
      refine ⟨hi, by omega, ?_⟩
      intro d' hd' htoken
      rcases hmoves.old i d' hd' with ⟨d, hd, hsame, hclaimed⟩ | hnew
      · have hlt := hold d hd (hsame.trans htoken)
        omega
      · omega
  | stamping c => exact ⟨h.1, by have := h.2.1; omega, h.2.2.moves hmoves (hown c rfl)⟩
  | holding c => exact ⟨h.1, by have := h.2.1; omega, h.2.2.moves hmoves (hown c rfl)⟩
  | removing c => exact ⟨h.1, by have := h.2.1; omega, h.2.2.moves hmoves (hown c rfl)⟩
  | failed => exact h

/-- A turn keeps the invariant when it moves the directories lawfully and leaves its own process
sound, with its claim or with a new one. -/
theorem System.Inv.turn {own : Option Nat} (h : s.Inv limit stale) (hmoves : Moves stale own s s')
    (hprocs : ∀ q, q ≠ p → s'.procs q = s.procs q)
    (hown : ∀ t, own = some t → ∃ c, (s.procs p).phase.claim = some c ∧ c.token = t)
    (hself : (s'.procs p).phase.Sound limit stale s')
    (hclaim : ∀ c, (s'.procs p).phase.claim = some c →
      (s.procs p).phase.claim = some c ∨ s.claims ≤ c.token)
    (hdirs : ∀ i d, s'.slots i = some d →
      d.claimed ≤ d.mtime ∧ d.mtime ≤ s'.now ∧ d.token < s'.claims)
    (hremoved : ∀ r ∈ s'.removed, r ∈ s.removed ∨
      (r.time < r.dir.claimed + stale → r.release = some r.dir.token)) :
    s'.Inv limit stale where
  dirs := hdirs
  sound := by
    intro q
    by_cases hq : q = p
    · rw [hq]
      exact hself
    · rw [hprocs q hq]
      apply (h.sound q).moves hmoves
      intro c hc hgone
      obtain ⟨c', hc', htoken⟩ := hown c.token hgone
      exact hq (h.tokens q p c c' hc hc' htoken.symm)
  tokens := by
    have hbound : ∀ q c, (s.procs q).phase.claim = some c → c.token < s.claims := by
      intro q c hc
      have hsound := h.sound q
      cases hphase : (s.procs q).phase with
      | stamping c' => rw [hphase] at hc hsound; cases hc; exact hsound.2.1
      | holding c' => rw [hphase] at hc hsound; cases hc; exact hsound.2.1
      | removing c' => rw [hphase] at hc hsound; cases hc; exact hsound.2.1
      | idle => rw [hphase] at hc; cases hc
      | trying i => rw [hphase] at hc; cases hc
      | timing i => rw [hphase] at hc; cases hc
      | aging i read => rw [hphase] at hc; cases hc
      | reclaiming i seen => rw [hphase] at hc; cases hc
      | failed => rw [hphase] at hc; cases hc
    intro q r c c' hc hc' htoken
    by_cases hq : q = p
    · by_cases hr : r = p
      · rw [hq, hr]
      · rw [hq] at hc
        rw [hprocs r hr] at hc'
        rcases hclaim c hc with hold | hnew
        · rw [hq]
          exact h.tokens p r c c' hold hc' htoken
        · have := hbound r c' hc'
          omega
    · rw [hprocs q hq] at hc
      by_cases hr : r = p
      · rw [hr] at hc'
        rcases hclaim c' hc' with hold | hnew
        · rw [hr]
          exact h.tokens q p c c' hc hold htoken
        · have := hbound q c hc
          omega
      · rw [hprocs r hr] at hc'
        exact h.tokens q r c c' hc hc' htoken
  removed := by
    intro r hr hyoung
    rcases hremoved r hr with hold | hnew
    · exact h.removed r hold hyoung
    · exact hnew hyoung
  fresh := by
    obtain ⟨n, hn⟩ := h.fresh
    refine ⟨max n (p + 1), fun q hq => ?_⟩
    have hne : q ≠ p := by omega
    rw [hprocs q hne]
    exact hn q (by omega)

theorem Moves.of_slots (hslots : s'.slots = s.slots) (hnow : s.now ≤ s'.now)
    (hclaims : s.claims ≤ s'.claims) : Moves stale none s s' where
  now := hnow
  claims := hclaims
  kept := by
    intro i d hd
    exact Or.inl ⟨d, by rw [hslots, hd], rfl, rfl⟩
  old := by
    intro i d hd
    rw [hslots] at hd
    exact Or.inl ⟨d, hd, rfl, rfl⟩

/-- A turn that leaves the directories as they are. -/
theorem System.Inv.put (h : s.Inv limit stale)
    (hself : phase.Sound limit stale (s.put p phase))
    (hclaim : ∀ c, phase.claim = some c → (s.procs p).phase.claim = some c) :
    (s.put p phase).Inv limit stale := by
  have hphase : ((s.put p phase).procs p).phase = phase := by rw [put_phase, if_pos rfl]
  refine h.turn (Moves.of_slots rfl le_rfl le_rfl) (p := p) ?_ ?_ ?_ ?_ h.dirs ?_
  · intro q hq
    exact Function.update_of_ne hq _ _
  · intro t ht
    cases ht
  · rw [hphase]
    exact hself
  · intro c hc
    rw [hphase] at hc
    exact Or.inl (hclaim c hc)
  · exact fun r hr => Or.inl hr

/-- A turn that changes what is in a directory, but not whose it is. -/
theorem System.Inv.edit (h : s.Inv limit stale) {i : Nat} {d d' : SlotDir}
    (hd : s.slots i = some d) (htoken : d'.token = d.token) (hclaimed : d'.claimed = d.claimed)
    (hmtime : d'.mtime = s.now) (hself : phase.Sound limit stale s)
    (hclaim : ∀ c, phase.claim = some c → (s.procs p).phase.claim = some c) :
    ((s.setSlot i (some d')).put p phase).Inv limit stale := by
  obtain ⟨hle, hnow, hlt⟩ := h.dirs i d hd
  have hslot : ∀ j x, ((s.setSlot i (some d')).put p phase).slots j = some x →
      (j = i ∧ x = d') ∨ s.slots j = some x := by
    intro j x hx
    rw [put_slots, setSlot_slots] at hx
    split at hx
    next hj => exact Or.inl ⟨hj, (Option.some.inj hx).symm⟩
    next => exact Or.inr hx
  have hmoves : Moves stale none s ((s.setSlot i (some d')).put p phase) := by
    refine ⟨le_rfl, le_rfl, ?_, ?_⟩
    · intro j x hx
      rw [put_slots, setSlot_slots]
      split
      next hj =>
        subst hj
        rw [hd] at hx
        obtain rfl := Option.some.inj hx
        exact Or.inl ⟨d', rfl, htoken, hclaimed⟩
      next => exact Or.inl ⟨x, hx, rfl, rfl⟩
    · intro j x hx
      rcases hslot j x hx with ⟨rfl, rfl⟩ | hold
      · exact Or.inl ⟨d, hd, htoken.symm, hclaimed.symm⟩
      · exact Or.inl ⟨x, hold, rfl, rfl⟩
  have hphase : (((s.setSlot i (some d')).put p phase).procs p).phase = phase := by
    rw [put_phase, if_pos rfl]
  refine h.turn hmoves (p := p) ?_ ?_ ?_ ?_ ?_ ?_
  · intro q hq
    exact Function.update_of_ne hq _ _
  · intro t ht
    cases ht
  · rw [hphase]
    exact hself.moves hmoves (fun c _ hc => by cases hc)
  · intro c hc
    rw [hphase] at hc
    exact Or.inl (hclaim c hc)
  · intro j x hx
    rcases hslot j x hx with ⟨rfl, rfl⟩ | hold
    · exact ⟨by omega, by simp [hmtime], by simp [htoken, hlt]⟩
    · exact h.dirs j x hold
  · exact fun r hr => Or.inl hr

/-- A turn that removes a directory: an old one, or that of the release's own claim. -/
theorem System.Inv.drop (h : s.Inv limit stale) {i : Nat} {own : Option Nat}
    (hold : ∀ d, s.slots i = some d → d.claimed + stale < s.now ∨ own = some d.token)
    (hown : ∀ t, own = some t → ∃ c, (s.procs p).phase.claim = some c ∧ c.token = t)
    (hself : phase.Sound limit stale s) (hclaim : phase.claim = none) :
    ((s.drop i own).put p phase).Inv limit stale := by
  cases hd : s.slots i with
  | none =>
      have hdrop : s.drop i own = s := by rw [System.drop, hd]
      rw [hdrop]
      have hmoves : Moves stale none s (s.put p phase) := Moves.of_slots rfl le_rfl le_rfl
      apply h.put
      · exact hself.moves hmoves (fun c _ hc => by cases hc)
      · intro c hc
        rw [hclaim] at hc
        cases hc
  | some d =>
      have hdrop : s.drop i own =
          { s.setSlot i none with removed := ⟨d, s.now, own⟩ :: s.removed } := by
        rw [System.drop, hd]
      have hslots : ∀ j, ((s.drop i own).put p phase).slots j =
          if j = i then none else s.slots j := by
        intro j
        rw [hdrop]
        exact setSlot_slots
      have hmoves : Moves stale own s ((s.drop i own).put p phase) := by
        refine ⟨by rw [hdrop]; exact le_rfl, by rw [hdrop]; exact le_rfl, ?_, ?_⟩
        · intro j x hx
          by_cases hj : j = i
          · subst hj
            exact Or.inr (hold x hx)
          · exact Or.inl ⟨x, by rw [hslots, if_neg hj, hx], rfl, rfl⟩
        · intro j x hx
          rw [hslots] at hx
          split at hx
          next => cases hx
          next => exact Or.inl ⟨x, hx, rfl, rfl⟩
      have hphase : (((s.drop i own).put p phase).procs p).phase = phase := by
        rw [put_phase, if_pos rfl]
      refine h.turn hmoves (p := p) ?_ hown ?_ ?_ ?_ ?_
      · intro q hq
        rw [hdrop]
        exact Function.update_of_ne hq _ _
      · rw [hphase]
        apply hself.moves hmoves
        intro c hc
        rw [hclaim] at hc
        cases hc
      · intro c hc
        rw [hphase, hclaim] at hc
        cases hc
      · intro j x hx
        rw [hslots] at hx
        split at hx
        next => cases hx
        next =>
          rw [hdrop]
          exact h.dirs j x hx
      · intro r hr
        rw [hdrop] at hr
        rcases List.mem_cons.mp hr with rfl | hr
        · right
          intro hyoung
          rcases hold d hd with hlt | heq
          · simp only at hyoung
            omega
          · exact heq
        · exact Or.inl hr

/-- A turn that makes a directory. -/
theorem System.Inv.claim (h : s.Inv limit stale) {i : Nat} (hi : i < limit)
    (hd : s.slots i = none) :
    System.Inv limit stale { (s.setSlot i (some ⟨s.claims, s.now, s.now, []⟩)).put p
      (.stamping ⟨i, s.claims, s.now⟩) with claims := s.claims + 1 } := by
  have hslot : ∀ j x, Function.update s.slots i (some ⟨s.claims, s.now, s.now, []⟩) j = some x →
      x = ⟨s.claims, s.now, s.now, []⟩ ∨ s.slots j = some x := by
    intro j x hx
    by_cases hj : j = i
    · subst hj
      rw [Function.update_self] at hx
      exact Or.inl (Option.some.inj hx).symm
    · rw [Function.update_of_ne hj] at hx
      exact Or.inr hx
  have hmoves : Moves stale none s { (s.setSlot i (some ⟨s.claims, s.now, s.now, []⟩)).put p
      (.stamping ⟨i, s.claims, s.now⟩) with claims := s.claims + 1 } := by
    refine ⟨le_rfl, Nat.le_succ _, ?_, ?_⟩
    · intro j x hx
      have hj : j ≠ i := by
        rintro rfl
        rw [hd] at hx
        cases hx
      exact Or.inl ⟨x, (Function.update_of_ne hj _ _).trans hx, rfl, rfl⟩
    · intro j x hx
      rcases hslot j x hx with rfl | hold
      · exact Or.inr le_rfl
      · exact Or.inl ⟨x, hold, rfl, rfl⟩
  refine h.turn hmoves (p := p) ?_ ?_ ?_ ?_ ?_ ?_
  · intro q hq
    exact Function.update_of_ne hq _ _
  · intro t ht
    cases ht
  · simp only [System.put, Function.update_self]
    refine ⟨hi, Nat.lt_succ_self _, Or.inl ⟨_, Function.update_self _ _ _, rfl, rfl⟩⟩
  · intro c hc
    simp only [System.put, Function.update_self, Phase.claim] at hc
    obtain rfl := Option.some.inj hc
    exact Or.inr le_rfl
  · intro j x hx
    rcases hslot j x hx with rfl | hold
    · exact ⟨le_rfl, le_rfl, Nat.lt_succ_self _⟩
    · obtain ⟨hle, hnow, hlt⟩ := h.dirs j x hold
      exact ⟨hle, hnow, Nat.lt_succ_of_lt hlt⟩
  · exact fun r hr => Or.inl hr

end Invariant

section Steps

variable {limit stale : Nat} {s s' : System} {p : Nat}

theorem nextSlot_lt {i : Nat} (h : i < limit) : nextSlot limit i < limit := by
  unfold nextSlot
  split
  next hlt => exact hlt
  next => omega

/-- What a careful turn keeps, for each step of the two functions. -/
theorem System.Inv.turn_step (h : s.Inv limit stale) (hcareful : s.careful stale (.turn p) = true)
    (hstep : s.turn limit stale p = some s') : s'.Inv limit stale := by
  have hsound := h.sound p
  unfold System.turn at hstep
  unfold System.careful at hcareful
  simp only at hcareful
  cases hphase : (s.procs p).phase with
  | idle =>
      rw [hphase] at hstep
      simp only at hstep
      split at hstep
      next hlimit =>
        obtain rfl := Option.some.inj hstep
        exact h.put hlimit fun c hc => by cases hc
      next => cases hstep
  | trying i =>
      rw [hphase] at hstep hsound
      simp only at hstep
      split at hstep
      next =>
        obtain rfl := Option.some.inj hstep
        exact h.put hsound fun c hc => by cases hc
      next hfree =>
        obtain rfl := Option.some.inj hstep
        exact h.claim hsound hfree
  | timing i =>
      rw [hphase] at hstep hsound
      obtain rfl := Option.some.inj hstep
      exact h.put ⟨hsound, le_rfl⟩ fun c hc => by cases hc
  | aging i read =>
      rw [hphase] at hstep hsound
      obtain ⟨hi, hread⟩ := hsound
      simp only at hstep
      split at hstep
      next =>
        obtain rfl := Option.some.inj hstep
        exact h.put (nextSlot_lt hi) fun c hc => by cases hc
      next d hd =>
        split at hstep
        next hold =>
          obtain rfl := Option.some.inj hstep
          obtain ⟨hle, _, hlt⟩ := h.dirs i d hd
          refine h.put ⟨hi, hlt, ?_⟩ fun c hc => by cases hc
          intro d' hd' _
          rw [put_slots, hd] at hd'
          obtain rfl := Option.some.inj hd'
          rw [put_now]
          omega
        next =>
          obtain rfl := Option.some.inj hstep
          exact h.put (nextSlot_lt hi) fun c hc => by cases hc
  | reclaiming i seen =>
      rw [hphase] at hstep hsound hcareful
      obtain ⟨hi, _, hold⟩ := hsound
      obtain rfl := Option.some.inj hstep
      refine h.drop ?_ (fun t ht => by cases ht) (nextSlot_lt hi) rfl
      intro d hd
      have hsame : d.token = seen := by simpa [hd] using hcareful
      exact Or.inl (hold d hd hsame)
  | stamping c =>
      rw [hphase] at hstep hsound hcareful
      obtain ⟨hi, hlt, hstands⟩ := hsound
      have hyoung : s.now ≤ c.claimed + stale := of_decide_eq_true hcareful
      have hthere : ∃ d, s.slots c.slot = some d := by
        rcases hstands with ⟨d, hd, _⟩ | hold
        · exact ⟨d, hd⟩
        · omega
      obtain ⟨d, hd⟩ := hthere
      simp only [hd] at hstep
      obtain rfl := Option.some.inj hstep
      refine h.edit hd ?_ ?_ ?_ ⟨hi, hlt, hstands⟩ fun c' hc' => ?_
      · rfl
      · rfl
      · rfl
      · rw [hphase]
        exact hc'
  | holding c =>
      rw [hphase] at hstep hsound
      have hkeep : ∀ c', (Phase.removing c).claim = some c' →
          (s.procs p).phase.claim = some c' := by
        intro c' hc'
        rw [hphase]
        exact hc'
      simp only at hstep
      split at hstep
      next =>
        obtain rfl := Option.some.inj hstep
        exact h.put hsound hkeep
      next d hd =>
        split at hstep
        next =>
          obtain rfl := Option.some.inj hstep
          refine h.edit hd ?_ ?_ ?_ hsound hkeep
          · rfl
          · rfl
          · rfl
        next =>
          obtain rfl := Option.some.inj hstep
          exact h.put hsound hkeep
  | removing c =>
      rw [hphase] at hstep hcareful
      simp only at hstep
      split at hstep
      next =>
        obtain rfl := Option.some.inj hstep
        exact h.put trivial fun c' hc' => by cases hc'
      next d hd =>
        split at hstep
        next hempty =>
          obtain rfl := Option.some.inj hstep
          have hall : decide (d.owners = [] → d.token = c.token) = true := by
            simpa only [hd, Option.all_some] using hcareful
          have hsame : d.token = c.token := of_decide_eq_true hall hempty
          refine h.drop ?_ ?_ trivial rfl
          · intro d' hd'
            rw [hd] at hd'
            obtain rfl := Option.some.inj hd'
            exact Or.inr (congrArg some hsame.symm)
          · intro t ht
            refine ⟨c, ?_, Option.some.inj ht⟩
            rw [hphase]
            rfl
        next =>
          obtain rfl := Option.some.inj hstep
          exact h.put trivial fun c' hc' => by cases hc'
  | failed =>
      rw [hphase] at hstep
      cases hstep

theorem System.Inv.step (h : s.Inv limit stale) {a : Act} (hcareful : s.careful stale a = true)
    (hstep : s.step limit stale a = some s') : s'.Inv limit stale := by
  cases a with
  | elapse d =>
      obtain rfl := Option.some.inj hstep
      have hmoves : Moves stale none s { s with now := s.now + d } :=
        Moves.of_slots rfl (Nat.le_add_right _ _) le_rfl
      refine ⟨?_, ?_, h.tokens, h.removed, h.fresh⟩
      · intro i x hx
        obtain ⟨hle, hnow, hlt⟩ := h.dirs i x hx
        exact ⟨hle, hnow.trans (Nat.le_add_right _ _), hlt⟩
      · intro q
        exact (h.sound q).moves hmoves fun c _ hc => by cases hc
  | kill p =>
      obtain rfl := Option.some.inj hstep
      have hphase : ∀ q, (Function.update s.procs p { s.procs p with alive := false } q).phase =
          (s.procs q).phase := by
        intro q
        by_cases hq : q = p
        · subst hq
          rw [Function.update_self]
        · rw [Function.update_of_ne hq]
      have hmoves : Moves stale none s
          { s with procs := Function.update s.procs p { s.procs p with alive := false } } :=
        Moves.of_slots rfl le_rfl le_rfl
      refine ⟨h.dirs, ?_, ?_, h.removed, ?_⟩
      · intro q
        rw [hphase]
        exact (h.sound q).moves hmoves fun c _ hc => by cases hc
      · intro q r c c' hc hc' htoken
        rw [hphase] at hc hc'
        exact h.tokens q r c c' hc hc' htoken
      · obtain ⟨n, hn⟩ := h.fresh
        refine ⟨max n (p + 1), fun q hq => ?_⟩
        have hne : q ≠ p := by omega
        simp only [Function.update_of_ne hne]
        exact hn q (by omega)
  | turn p =>
      have hturn : (if (s.procs p).alive then s.turn limit stale p else none) = some s' := hstep
      split at hturn
      next => exact h.turn_step hcareful hturn
      next => cases hturn

end Steps

section Reclaim

variable {limit stale : Nat} {s s' t : System} {p i j : Nat} {more : List Act}

/-- Processes that have not started, as many as are needed. -/
def System.Fresh (s : System) : Prop :=
  ∃ n, ∀ p, n ≤ p → (s.procs p).phase = .idle ∧ (s.procs p).alive = true

theorem System.Fresh.of_procs (h : s.Fresh) (hprocs : ∀ q, q ≠ p → s'.procs q = s.procs q) :
    s'.Fresh := by
  obtain ⟨n, hn⟩ := h
  refine ⟨max n (p + 1), fun q hq => ?_⟩
  have hne : q ≠ p := by omega
  rw [hprocs q hne]
  exact hn q (by omega)

theorem run_turn (halive : (s.procs p).alive = true) (hturn : s.turn limit stale p = some t)
    (hrest : Trace.run (System.step limit stale) t more = some s') :
    Trace.run (System.step limit stale) s (.turn p :: more) = some s' := by
  have hstep : s.step limit stale (.turn p) = some t := by
    unfold System.step
    simp only
    rw [if_pos halive, hturn]
  rw [Trace.run_cons, hstep]
  exact hrest

/-- What a process finds at a slot that is taken: it goes on, and a stale directory is gone. -/
theorem pass_taken (limit stale : Nat) (halive : (s.procs p).alive = true) (hphase : (s.procs p).phase = .trying i)
    {d : SlotDir} (hd : s.slots i = some d) :
    ∃ more s', Trace.run (System.step limit stale) s more = some s' ∧
      (s'.procs p).phase = .trying (nextSlot limit i) ∧ (s'.procs p).alive = true ∧
      (∀ q, q ≠ p → s'.procs q = s.procs q) ∧ (∀ j, j ≠ i → s'.slots j = s.slots j) ∧
      s'.slots i = (if d.mtime + stale < s.now then none else some d) ∧ s'.now = s.now ∧
      s'.claims = s.claims := by
  have hothers : ∀ (u : System) (phase : Phase), (∀ q, q ≠ p → u.procs q = s.procs q) →
      ∀ q, q ≠ p → (u.put p phase).procs q = s.procs q := by
    intro u phase hu q hq
    rw [← hu q hq]
    exact Function.update_of_ne hq _ _
  let s₁ := s.put p (.timing i)
  let s₂ := s₁.put p (.aging i s.now)
  have hself : ∀ (u : System) (phase : Phase), ((u.put p phase).procs p).phase = phase := by
    intro u phase
    rw [put_phase, if_pos rfl]
  have halive₁ : (s₁.procs p).alive = true := by rw [put_alive, halive]
  have halive₂ : (s₂.procs p).alive = true := by rw [put_alive, halive₁]
  have hturn : s.turn limit stale p = some s₁ := by
    simp only [System.turn, hphase, hd]
    rfl
  have hturn₁ : s₁.turn limit stale p = some s₂ := by
    simp only [System.turn, s₁, hself]
    rfl
  by_cases hold : d.mtime + stale < s.now
  · let s₃ := s₂.put p (.reclaiming i d.token)
    have halive₃ : (s₃.procs p).alive = true := by rw [put_alive, halive₂]
    have hturn₂ : s₂.turn limit stale p = some s₃ := by
      simp only [System.turn, s₂, s₁, hself, put_slots, hd, hold, if_true]
      rfl
    have hturn₃ : s₃.turn limit stale p =
        some ((s₃.drop i none).put p (.trying (nextSlot limit i))) := by
      simp only [System.turn, s₃, hself]
    have hdrop : s₃.drop i none =
        { s₃.setSlot i none with removed := ⟨d, s₃.now, none⟩ :: s₃.removed } := by
      have hslot : s₃.slots i = some d := hd
      rw [System.drop, hslot]
    refine ⟨_, _, run_turn halive hturn (run_turn halive₁ hturn₁ (run_turn halive₂ hturn₂
      (run_turn halive₃ hturn₃ Trace.run_nil))), ?_, ?_, ?_, ?_, ?_, ?_, ?_⟩
    · rw [put_phase, if_pos rfl]
    · rw [put_alive, hdrop]
      exact halive₃
    · rw [hdrop]
      exact hothers _ _ (hothers _ _ (hothers _ _ (hothers _ _ fun q _ => rfl)))
    · intro j hj
      rw [hdrop]
      exact Function.update_of_ne hj _ _
    · rw [hdrop, if_pos hold]
      exact Function.update_self _ _ _
    · rw [hdrop]
      rfl
    · rw [hdrop]
      rfl
  · have hturn₂ : s₂.turn limit stale p = some (s₂.put p (.trying (nextSlot limit i))) := by
      simp only [System.turn, s₂, s₁, hself, put_slots, hd, hold, if_false]
    refine ⟨_, _, run_turn halive hturn (run_turn halive₁ hturn₁ (run_turn halive₂ hturn₂
      Trace.run_nil)), ?_, ?_, ?_, ?_, ?_, ?_, ?_⟩
    · rw [put_phase, if_pos rfl]
    · rw [put_alive, halive₂]
    · exact hothers _ _ (hothers _ _ (hothers _ _ fun q _ => rfl))
    · exact fun j _ => rfl
    · rw [if_neg hold]
      exact hd
    · rfl
    · rfl

/-- What a process finds at a slot that is free: it claims it. -/
theorem claim_free (limit stale : Nat) (halive : (s.procs p).alive = true) (hphase : (s.procs p).phase = .trying i)
    (hd : s.slots i = none) :
    ∃ s', Trace.run (System.step limit stale) s [.turn p] = some s' ∧
      (s'.procs p).phase = .stamping ⟨i, s.claims, s.now⟩ ∧
      (∀ q, q ≠ p → s'.procs q = s.procs q) ∧ (∀ j, j ≠ i → s'.slots j = s.slots j) ∧
      s'.slots i = some ⟨s.claims, s.now, s.now, []⟩ ∧ s'.now = s.now ∧
      s'.claims = s.claims + 1 := by
  have hturn : s.turn limit stale p =
      some { (s.setSlot i (some ⟨s.claims, s.now, s.now, []⟩)).put p
        (.stamping ⟨i, s.claims, s.now⟩) with claims := s.claims + 1 } := by
    simp only [System.turn, hphase, hd]
  refine ⟨_, run_turn halive hturn Trace.run_nil, ?_, ?_, ?_, ?_, rfl, rfl⟩
  · simp only [System.put, Function.update_self]
  · exact fun q hq => Function.update_of_ne hq _ _
  · exact fun j hj => Function.update_of_ne hj _ _
  · exact Function.update_self _ _ _

/-- Some process can always come to try a slot, with that slot and those behind it as they were. -/
theorem exists_trying (stale : Nat) (hfresh : s.Fresh) (hj : j < limit) :
    ∃ more s' p, Trace.run (System.step limit stale) s more = some s' ∧
      (s'.procs p).phase = .trying j ∧ (s'.procs p).alive = true ∧
      (∀ k, j ≤ k → s'.slots k = s.slots k) ∧ s'.now = s.now ∧ s.claims ≤ s'.claims ∧ s'.Fresh := by
  induction j generalizing s with
  | zero =>
      obtain ⟨n, hn⟩ := id hfresh
      obtain ⟨hidle, halive⟩ := hn n le_rfl
      have hturn : s.turn limit stale n = some (s.put n (.trying 0)) := by
        simp only [System.turn, hidle, if_pos hj]
      refine ⟨_, _, n, run_turn halive hturn Trace.run_nil, ?_, ?_, fun k _ => rfl, rfl, le_rfl,
        ?_⟩
      · rw [put_phase, if_pos rfl]
      · rw [put_alive, halive]
      · exact hfresh.of_procs fun q hq => Function.update_of_ne hq _ _
  | succ j ih =>
      have hnext : nextSlot limit j = j + 1 := if_pos hj
      obtain ⟨before, t, p, hrun, hphase, halive, hslots, hnow, hclaims, htfresh⟩ :=
        ih hfresh (by omega)
      cases hd : t.slots j with
      | some d =>
          obtain ⟨after, u, hpass, huphase, hualive, hothers, huslots, _, hunow, huclaims⟩ :=
            pass_taken limit stale halive hphase hd
          refine ⟨before ++ after, u, p, ?_, ?_, hualive, ?_, ?_, ?_, ?_⟩
          · rw [Trace.run_append, hrun]
            exact hpass
          · rw [huphase, hnext]
          · intro k hk
            rw [huslots k (by omega), hslots k (by omega)]
          · rw [hunow, hnow]
          · rw [huclaims]
            exact hclaims
          · exact htfresh.of_procs hothers
      | none =>
          -- The slot is claimed on the way, and the next process finds it taken a moment ago.
          obtain ⟨t₁, hclaim, _, hothers, ht₁slots, ht₁slot, ht₁now, ht₁claims⟩ :=
            claim_free limit stale halive hphase hd
          have ht₁fresh := htfresh.of_procs hothers
          obtain ⟨middle, u, q, hmiddle, hqphase, hqalive, huslots, hunow, huclaims, hufresh⟩ :=
            ih ht₁fresh (by omega)
          have hdu : u.slots j = some ⟨t.claims, t.now, t.now, []⟩ := by
            rw [huslots j le_rfl, ht₁slot]
          obtain ⟨after, v, hpass, hvphase, hvalive, hvothers, hvslots, _, hvnow, hvclaims⟩ :=
            pass_taken limit stale hqalive hqphase hdu
          refine ⟨before ++ ([.turn p] ++ (middle ++ after)), v, q, ?_, ?_, hvalive, ?_, ?_, ?_, ?_⟩
          · rw [Trace.run_append, hrun, Option.bind_some, Trace.run_append, hclaim,
              Option.bind_some, Trace.run_append, hmiddle]
            exact hpass
          · rw [hvphase, hnext]
          · intro k hk
            rw [hvslots k (by omega), huslots k (by omega), ht₁slots k (by omega),
              hslots k (by omega)]
          · rw [hvnow, hunow, ht₁now, hnow]
          · omega
          · exact hufresh.of_procs hvothers

/-- Every slot can be claimed again, whoever claimed it last. -/
theorem exists_claim (hfresh : s.Fresh) (hi : i < limit) :
    ∃ more s' p c, Trace.run (System.step limit stale) s more = some s' ∧
      (s'.procs p).phase = .stamping c ∧ c.slot = i ∧ s.claims ≤ c.token := by
  obtain ⟨before, t, p, hrun, hphase, halive, _, _, hclaims, htfresh⟩ :=
    exists_trying stale hfresh hi
  cases hd : t.slots i with
  | none =>
      obtain ⟨u, hclaim, huphase, _⟩ :=
        claim_free limit stale halive hphase hd
      refine ⟨before ++ [.turn p], u, p, _, ?_, huphase, rfl, hclaims⟩
      rw [Trace.run_append, hrun]
      exact hclaim
  | some d =>
      -- Once the directory is stale, the process removes it, and another one claims the slot.
      let t₁ : System := { t with now := t.now + (d.mtime + stale + 1) }
      have helapse : t.step limit stale (.elapse (d.mtime + stale + 1)) = some t₁ := rfl
      have hold : d.mtime + stale < t₁.now := by
        show d.mtime + stale < t.now + (d.mtime + stale + 1)
        omega
      obtain ⟨after, u, hpass, _, _, hothers, _, hslot, _, huclaims⟩ :=
        pass_taken (s := t₁) limit stale halive hphase hd
      rw [if_pos hold] at hslot
      have hufresh : u.Fresh := System.Fresh.of_procs (s := t₁) htfresh hothers
      obtain ⟨more, v, q, hmore, hqphase, hqalive, hvslots, _, hvclaims, _⟩ :=
        exists_trying stale hufresh hi
      have hfree : v.slots i = none := by rw [hvslots i le_rfl, hslot]
      obtain ⟨w, hclaim, hwphase, _⟩ :=
        claim_free limit stale hqalive hqphase hfree
      refine ⟨before ++ ([.elapse (d.mtime + stale + 1)] ++ (after ++ (more ++ [.turn q]))), w, q, _,
        ?_, hwphase, rfl, ?_⟩
      · rw [Trace.run_append, hrun, Option.bind_some, Trace.run_append, Trace.run_cons, helapse,
          Option.bind_some, Trace.run_nil, Option.bind_some, Trace.run_append, hpass,
          Option.bind_some, Trace.run_append, hmore]
        exact hclaim
      · have hsame : t₁.claims = t.claims := rfl
        show s.claims ≤ v.claims
        omega

end Reclaim

section Exclusive

variable {limit stale : Nat} {s : System}

theorem System.Inv.claim_sound (h : s.Inv limit stale) {p : Nat} {c : BootSlot}
    (hc : (s.procs p).phase.claim = some c) : c.slot < limit ∧ Stands stale s c := by
  have hsound := h.sound p
  cases hphase : (s.procs p).phase with
  | stamping c' =>
      rw [hphase] at hc hsound
      obtain rfl := Option.some.inj hc
      exact ⟨hsound.1, hsound.2.2⟩
  | holding c' =>
      rw [hphase] at hc hsound
      obtain rfl := Option.some.inj hc
      exact ⟨hsound.1, hsound.2.2⟩
  | removing c' =>
      rw [hphase] at hc hsound
      obtain rfl := Option.some.inj hc
      exact ⟨hsound.1, hsound.2.2⟩
  | idle => rw [hphase] at hc; cases hc
  | trying i => rw [hphase] at hc; cases hc
  | timing i => rw [hphase] at hc; cases hc
  | aging i read => rw [hphase] at hc; cases hc
  | reclaiming i seen => rw [hphase] at hc; cases hc
  | failed => rw [hphase] at hc; cases hc

/-- Young claims stand in slots of their own. -/
theorem System.Inv.young_le (h : s.Inv limit stale) {ps : List Nat} (hnodup : ps.Nodup)
    (hyoung : ∀ p ∈ ps, ∃ c, (s.procs p).phase.claim = some c ∧ s.now < c.claimed + stale) :
    ps.length ≤ limit := by
  have hthere : ∀ p ∈ ps, ∃ c d, (s.procs p).phase.claim = some c ∧ c.slot < limit ∧
      s.slots c.slot = some d ∧ d.token = c.token := by
    intro p hp
    obtain ⟨c, hc, hnow⟩ := hyoung p hp
    obtain ⟨hslot, hstands⟩ := h.claim_sound hc
    rcases hstands with ⟨d, hd, htoken, _⟩ | hold
    · exact ⟨c, d, hc, hslot, hd, htoken⟩
    · omega
  let place : Nat → Nat := fun p => ((s.procs p).phase.claim.map BootSlot.slot).getD 0
  have hinjective : ∀ p ∈ ps, ∀ q ∈ ps, place p = place q → p = q := by
    intro p hp q hq hplace
    obtain ⟨c, d, hc, _, hd, htoken⟩ := hthere p hp
    obtain ⟨c', d', hc', _, hd', htoken'⟩ := hthere q hq
    simp only [place, hc, hc', Option.map_some, Option.getD_some] at hplace
    rw [hplace, hd'] at hd
    obtain rfl := Option.some.inj hd
    exact h.tokens p q c c' hc hc' (htoken.symm.trans htoken')
  have hmaps : (ps.map place).Nodup := List.Nodup.map_on hinjective hnodup
  have hsub : ps.map place ⊆ List.range limit := by
    intro i hi
    obtain ⟨p, hp, rfl⟩ := List.mem_map.mp hi
    obtain ⟨c, d, hc, hslot, _, _⟩ := hthere p hp
    simpa only [place, hc, Option.map_some, Option.getD_some, List.mem_range] using hslot
  have hlength := (hmaps.subperm hsub).length_le
  rwa [List.length_map, List.length_range] at hlength

theorem System.Inv.exclusive (h : s.Inv limit stale) : s.Exclusive limit stale where
  removed := h.removed
  bounded := fun _ hnodup hyoung => h.young_le hnodup hyoung
  raises := by
    intro p hfailed
    have hsound := h.sound p
    rw [hfailed] at hsound
    exact hsound
  reclaimed := fun _ hi => exists_claim h.fresh hi

/-- In every run whose steps keep to what their process has seen, boot slots are exclusive. -/
theorem bootSlots_exclusive {now : Nat} {trace : List Act}
    (hcareful : Trace.Along (System.step limit stale)
      (fun s a => s.careful stale a = true) (System.opened now) trace)
    (hrun : Trace.run (System.step limit stale) (System.opened now) trace = some s) :
    s.Exclusive limit stale := by
  have hstart : (System.opened now).Inv limit stale := by
    refine ⟨?_, ?_, ?_, ?_, ?_⟩
    · intro i d hd
      cases hd
    · exact fun _ => trivial
    · intro p q c c' hc
      cases hc
    · exact List.forall_mem_nil _
    · exact ⟨0, fun p _ => ⟨rfl, rfl⟩⟩
  have hend := Trace.run_keeps_along (I := fun _ s => s.Inv limit stale) hstart
    (fun h hallowed hstep => h.step hallowed hstep) hcareful hrun
  exact hend.exclusive

/-- A process claims a slot and is killed; another finds it stale, removes it and claims the other
slot, and a third claims the first one and releases it. -/
def killedRun : List Act :=
  [.turn 0, .turn 0, .turn 0, .kill 0, .elapse 61,
    .turn 1, .turn 1, .turn 1, .turn 1, .turn 1, .turn 1, .turn 1,
    .turn 2, .turn 2, .turn 2, .turn 2, .turn 2]

theorem bootSlots_exclusive_killed :
    ∃ s, Trace.run (System.step 2 60) (System.opened 0) killedRun = some s ∧
      s.removed.map (fun r => (r.dir.token, r.time, r.release)) =
        [(2, 61, some 2), (0, 61, none)] ∧ s.Exclusive 2 60 := by
  have hend : (Trace.run (System.step 2 60) (System.opened 0) killedRun).any (fun s =>
      decide (s.removed.map (fun r => (r.dir.token, r.time, r.release)) =
        [(2, 61, some 2), (0, 61, none)])) = true := by
    decide +kernel
  obtain ⟨s, hrun, hremoved⟩ := (Option.any_eq_true _ _).mp hend
  have hcareful : Trace.Along (System.step 2 60) (fun s a => s.careful 60 a = true)
      (System.opened 0) killedRun := by
    decide +kernel
  exact ⟨s, hrun, of_decide_eq_true hremoved, bootSlots_exclusive hcareful hrun⟩

/-- Two processes find the killed one's slot stale; one removes it, a third claims it anew, and the
other removes that claim. -/
def lateRemovalRun : List Act :=
  [.turn 0, .turn 0, .turn 0, .kill 0, .elapse 61,
    .turn 1, .turn 1, .turn 1, .turn 1, .turn 2, .turn 2, .turn 2, .turn 2, .turn 2,
    .turn 3, .turn 3, .turn 3, .turn 1]

/-- A slow holder's slot is reclaimed and claimed anew, and its release removes the new directory
before the owner file is in it. -/
def lateReleaseRun : List Act :=
  [.turn 0, .turn 0, .turn 0, .elapse 61,
    .turn 1, .turn 1, .turn 1, .turn 1, .turn 1, .turn 2, .turn 2, .turn 0, .turn 0, .turn 2]

theorem bootSlots_shared :
    (∃ s, Trace.run (System.step 2 60) (System.opened 0) lateRemovalRun = some s ∧
        ¬ s.Exclusive 2 60) ∧
      ∃ s, Trace.run (System.step 2 60) (System.opened 0) lateReleaseRun = some s ∧
        (s.procs 2).phase = .failed ∧ ¬ s.Exclusive 2 60 := by
  constructor
  · have hend : (Trace.run (System.step 2 60) (System.opened 0) lateRemovalRun).any (fun s =>
        decide (⟨⟨1, 61, 61, [1]⟩, 61, none⟩ ∈ s.removed)) = true := by
      decide +kernel
    obtain ⟨s, hrun, hremoved⟩ := (Option.any_eq_true _ _).mp hend
    refine ⟨s, hrun, fun hexclusive => ?_⟩
    have hown := hexclusive.removed _ (of_decide_eq_true hremoved) (by decide)
    cases hown
  · have hend : (Trace.run (System.step 2 60) (System.opened 0) lateReleaseRun).any (fun s =>
        decide ((s.procs 2).phase = .failed)) = true := by
      decide +kernel
    obtain ⟨s, hrun, hfailed⟩ := (Option.any_eq_true _ _).mp hend
    have hphase : (s.procs 2).phase = .failed := of_decide_eq_true hfailed
    exact ⟨s, hrun, hphase, fun hexclusive => hexclusive.raises 2 hphase⟩

end Exclusive

end Trackinizer.BootSlots
