import Trackinizer.BearerCache
import Trackinizer.KeyCeilings

namespace Trackinizer.Bearers

open Keyed Auth

section Runs

variable {δ : Type} [DecidableEq δ] {digest : Text → δ} {verify : Text → Text → Bool}
  {staff : List Text} {p p' : Process δ}

/-- No change of the key that is in the log before `logged` is behind this row. -/
def Latest (log : List KeyRow) (logged : Nat) (k : KeyRow) : Prop :=
  ∀ i < logged, ∀ r, log[i]? = some r → r.id = k.id → ∃ j, i ≤ j ∧ log[j]? = some k

/-- The identity of a live key and its user, as they were when the log was so long. -/
def AsOf (staff : List Text) (p : Process δ) (logged : Nat) (identity : AuthIdentity) : Prop :=
  ∃ k u, k.revoked = false ∧ p.store.users.find? k.userId = some u ∧
    identity = identityOf staff u k ∧ Latest p.log logged k

/-- An answer that every change behind the request's arrival is in: refused, or the role that
the key has then or had later. -/
def UpToDate (staff : List Text) (p : Process δ) (before : List Nat) :
    Option AuthIdentity → Prop
  | none => True
  | some identity => ∀ i ∈ before, ∀ r, p.log[i]? = some r → identity.apiKeyId = some r.id →
      ∃ j k u, i ≤ j ∧ p.log[j]? = some k ∧ k.id = r.id ∧ k.revoked = false ∧
        p.store.users.find? k.userId = some u ∧ identity = identityOf staff u k

/-- Every answer so far is up to date. -/
def Process.Prompt (staff : List Text) (p : Process δ) : Prop :=
  ∀ check ∈ p.checks, ∀ answer, check.phase = .answered answer →
    UpToDate staff p check.before answer

/-- A change of the identity's key, which committed after the log was so long, has returned. -/
def Process.overtaken (p : Process δ) (identity : AuthIdentity) (logged : Nat) : Bool :=
  p.returned.any fun i => decide (logged ≤ i) &&
    (p.log[i]?).any fun r => decide (identity.apiKeyId = some r.id)

/-- No verification stores an identity that a change has overtaken since it read the rows. -/
def OnTime (p : Process δ) : Act → Prop
  | .store v =>
      match p.checks[v]? with
      | some { phase := .verified identity logged, .. } => p.overtaken identity logged = false
      | _ => True
  | _ => True

instance decidableOnTime (p : Process δ) (act : Act) : Decidable (OnTime p act) := by
  unfold OnTime
  split
  · split <;> infer_instance
  · infer_instance

omit [DecidableEq δ] in
theorem lt_of_not_overtaken {identity : AuthIdentity} {logged : Nat}
    (h : p.overtaken identity logged = false) :
    ∀ i ∈ p.returned, ∀ r, p.log[i]? = some r → identity.apiKeyId = some r.id → i < logged := by
  intro i hi r hr hkey
  by_contra hlate
  have hnot := List.any_eq_false.mp h i hi
  rw [hr, Option.any_some, decide_eq_true (Nat.le_of_not_lt hlate), decide_eq_true hkey] at hnot
  exact hnot rfl

/-- What is known of a request in each of its phases. -/
def Phase.Sound (staff : List Text) (p : Process δ) (before : List Nat) : Phase → Prop
  | .arrived | .missed => True
  | .read rows logged => logged ≤ p.log.length ∧ (∀ i ∈ before, i < logged) ∧
      ∀ row ∈ rows, row.1.revoked = false ∧ p.store.users.find? row.1.userId = some row.2 ∧
        Latest p.log logged row.1
  | .verified identity logged => logged ≤ p.log.length ∧ (∀ i ∈ before, i < logged) ∧
      AsOf staff p logged identity
  | .answered answer => UpToDate staff p before answer

structure Process.Inv (staff : List Text) (p : Process δ) : Prop where
  current : ∀ k ∈ p.store.keys.rows, Latest p.log p.log.length k
  returned_lt : ∀ i ∈ p.returned, i < p.log.length
  before_returned : ∀ check ∈ p.checks, ∀ i ∈ check.before, i ∈ p.returned
  cached : ∀ entry ∈ p.cache, ∃ logged, AsOf staff p logged entry.2.1 ∧
    ∀ i ∈ p.returned, ∀ r, p.log[i]? = some r → entry.2.1.apiKeyId = some r.id → i < logged
  sound : ∀ check ∈ p.checks, check.phase.Sound staff p check.before

omit [DecidableEq δ] in
theorem AsOf.upToDate {logged : Nat} {identity : AuthIdentity} {before : List Nat}
    (h : AsOf staff p logged identity)
    (hbefore : ∀ i ∈ before, ∀ r, p.log[i]? = some r → identity.apiKeyId = some r.id →
      i < logged) : UpToDate staff p before (some identity) := by
  obtain ⟨k, u, hlive, hu, rfl, hlatest⟩ := h
  intro i hi r hr hkey
  have hid : r.id = k.id := (Option.some.inj hkey).symm
  obtain ⟨j, hle, hj⟩ := hlatest i (hbefore i hi r hr hkey) r hr hid
  exact ⟨j, k, u, hle, hj, hid.symm, hlive, hu, rfl⟩

omit [DecidableEq δ] in
/-- A request that moves on, with the cache as it then is. -/
theorem Process.Inv.move (h : p.Inv staff) {v : Nat} {secret : Text} {before : List Nat}
    {old phase : Phase} {cache : Cache δ} (hcheck : p.checks[v]? = some ⟨secret, before, old⟩)
    (hcache : ∀ entry ∈ cache, entry ∈ p.cache ∨ ∃ logged, AsOf staff p logged entry.2.1 ∧
      ∀ i ∈ p.returned, ∀ r, p.log[i]? = some r → entry.2.1.apiKeyId = some r.id → i < logged)
    (hphase : phase.Sound staff p before) :
    Process.Inv staff ({ p with cache := cache }.move v secret before phase) where
  current := h.current
  returned_lt := h.returned_lt
  before_returned := by
    intro check hmem
    rcases List.mem_or_eq_of_mem_set hmem with hold | rfl
    · exact h.before_returned check hold
    · exact h.before_returned ⟨secret, before, old⟩ (List.mem_of_getElem? hcheck)
  cached := by
    intro entry hentry
    rcases hcache entry hentry with hold | hnew
    · exact h.cached entry hold
    · exact hnew
  sound := by
    intro check hmem
    rcases List.mem_or_eq_of_mem_set hmem with hold | rfl
    · exact h.sound check hold
    · exact hphase

theorem mem_evictSoonest {cache : Cache δ} {entry : δ × AuthIdentity × ℚ}
    (h : entry ∈ evictSoonest cache) : entry ∈ cache := by
  unfold evictSoonest at h
  split at h
  next => exact h
  next => exact PyDict.pop_sublist.subset h

theorem mem_remember {cache : Cache δ} {d : δ} {identity : AuthIdentity} {now : ℚ}
    {entry : δ × AuthIdentity × ℚ} (h : entry ∈ rememberBearerIdentity cache d identity now) :
    entry ∈ cache ∨ entry.2.1 = identity := by
  rcases PyDict.mem_set h with rfl | hold
  · exact Or.inr rfl
  · left
    split at hold
    next => exact mem_evictSoonest hold
    next => exact hold

theorem mem_cached {cache cache' : Cache δ} {d : δ} {now : ℚ} {found : Option AuthIdentity}
    (h : cachedBearerIdentity cache d now = (found, cache')) :
    (∀ entry ∈ cache', entry ∈ cache) ∧
      ∀ identity, found = some identity → ∃ entry ∈ cache, entry.2.1 = identity := by
  unfold cachedBearerIdentity at h
  split at h
  next =>
    cases h
    exact ⟨fun _ he => he, fun _ hf => by cases hf⟩
  next identity expiresAt hget =>
    split at h
    next =>
      cases h
      exact ⟨fun _ he => PyDict.pop_sublist.subset he, fun _ hf => by cases hf⟩
    next =>
      cases h
      refine ⟨fun _ he => he, fun identity' hf => ?_⟩
      cases hf
      exact ⟨_, PyDict.mem_of_get hget, rfl⟩

omit [DecidableEq δ] in
theorem Phase.Sound.change {before : List Nat} {phase : Phase} (h : phase.Sound staff p before)
    {store : KeyStore} (husers : store.users = p.store.users) (more : List KeyRow)
    (hbefore : ∀ i ∈ before, i < p.log.length) :
    phase.Sound staff { p with store := store, log := p.log ++ more } before := by
  -- The log only grows, so an entry of it stays where it is.
  have hold : ∀ {i : Nat} {r : KeyRow}, p.log[i]? = some r → (p.log ++ more)[i]? = some r := by
    intro i r hr
    rw [List.getElem?_append_left (List.getElem?_eq_some_iff.mp hr).1]
    exact hr
  have hback : ∀ {i : Nat} {r : KeyRow}, i < p.log.length → (p.log ++ more)[i]? = some r →
      p.log[i]? = some r := by
    intro i r hi hr
    rwa [List.getElem?_append_left hi] at hr
  have hlatest : ∀ {logged : Nat} {k : KeyRow}, logged ≤ p.log.length →
      Latest p.log logged k → Latest (p.log ++ more) logged k := by
    intro logged k hle hk i hi r hr hid
    obtain ⟨j, hij, hj⟩ := hk i hi r (hback (hi.trans_le hle) hr) hid
    exact ⟨j, hij, hold hj⟩
  have hlength : p.log.length ≤ (p.log ++ more).length := by
    rw [List.length_append]
    omega
  cases phase with
  | arrived => trivial
  | missed => trivial
  | read rows logged =>
    obtain ⟨hle, hall, hrows⟩ := h
    refine ⟨hle.trans hlength, hall, fun row hrow => ?_⟩
    obtain ⟨hlive, hu, hk⟩ := hrows row hrow
    exact ⟨hlive, by rw [husers]; exact hu, hlatest hle hk⟩
  | verified identity logged =>
    obtain ⟨hle, hall, k, u, hlive, hu, hsame, hk⟩ := h
    exact ⟨hle.trans hlength, hall, k, u, hlive, by rw [husers]; exact hu, hsame, hlatest hle hk⟩
  | answered answer =>
    cases answer with
    | none => trivial
    | some identity =>
      intro i hi r hr hkey
      obtain ⟨j, k, u, hij, hj, hid, hlive, hu, hsame⟩ := h i hi r (hback (hbefore i hi) hr) hkey
      exact ⟨j, k, u, hij, hold hj, hid, hlive, by rw [husers]; exact hu, hsame⟩

omit [DecidableEq δ] in
/-- A change that commits is the latest of its key, and leaves the other keys as they were. -/
theorem Process.Inv.change (h : p.Inv staff) {keyId userId : UUID} {c : Change} {store : KeyStore}
    (hupdate : updateKey p.store keyId userId c.apply c.apply_id = (true, store)) :
    Process.Inv staff
      { p with store := store, log := p.log ++ (store.keys.find? keyId).toList } := by
  obtain ⟨⟨old, hold⟩, husers, hfind⟩ := updateKey_true hupdate
  have hbefore : p.store.keys.find? keyId = some old := (liveKey_eq_some hold).1
  have hid : old.id = keyId := Table.find?_key hbefore
  have hnew : store.keys.find? keyId = some (c.apply old) := by
    rw [hfind, hbefore, Option.map_some, if_pos hid]
  rw [hnew]
  have hlast : (p.log ++ [c.apply old])[p.log.length]? = some (c.apply old) :=
    List.getElem?_concat_length
  have hkeep : ∀ {i : Nat} {r : KeyRow}, (p.log ++ [c.apply old])[i]? = some r →
      p.log[i]? = some r ∨ i = p.log.length ∧ r = c.apply old := by
    intro i r hr
    by_cases hi : i < p.log.length
    · rw [List.getElem?_append_left hi] at hr
      exact Or.inl hr
    · have hlt := (List.getElem?_eq_some_iff.mp hr).1
      rw [List.length_append, List.length_singleton] at hlt
      have heq : i = p.log.length := by omega
      rw [heq, hlast] at hr
      exact Or.inr ⟨heq, (Option.some.inj hr).symm⟩
  constructor
  · intro k hk i hi r hr hsame
    have hk' : store.keys.find? k.id = some k := Table.mem_iff_find?.mp hk
    by_cases hkey : k.id = keyId
    · rw [hkey, hnew] at hk'
      cases hk'
      refine ⟨p.log.length, ?_, hlast⟩
      rw [Option.toList_some, List.length_append, List.length_singleton] at hi
      omega
    · have hother : p.store.keys.find? k.id = some k := by
        rw [hfind] at hk'
        obtain ⟨row, hrow, heq⟩ := Option.map_eq_some_iff.mp hk'
        rw [if_neg (by rw [Table.find?_key hrow]; exact hkey)] at heq
        rw [hrow, heq]
      rcases hkeep hr with hr | ⟨_, rfl⟩
      · obtain ⟨j, hij, hj⟩ := h.current k (Table.mem_of_find? hother) i
          (List.getElem?_eq_some_iff.mp hr).1 r hr hsame
        refine ⟨j, hij, ?_⟩
        show (p.log ++ [c.apply old])[j]? = some k
        rw [List.getElem?_append_left (List.getElem?_eq_some_iff.mp hj).1]
        exact hj
      · rw [c.apply_id, hid] at hsame
        exact absurd hsame.symm hkey
  · intro i hi
    have hlt := h.returned_lt i hi
    show i < (p.log ++ [c.apply old]).length
    rw [List.length_append]
    omega
  · exact h.before_returned
  · intro entry hentry
    obtain ⟨logged, ⟨k, u, hlive, hu, hsame, hlatest⟩, hdue⟩ := h.cached entry hentry
    by_cases hle : logged ≤ p.log.length
    · have hverified : Phase.Sound staff p [] (.verified entry.2.1 logged) :=
        ⟨hle, List.forall_mem_nil _, k, u, hlive, hu, hsame, hlatest⟩
      obtain ⟨_, _, hasof⟩ := hverified.change husers [c.apply old] (List.forall_mem_nil _)
      refine ⟨logged, hasof, fun i hi r hr hkey => ?_⟩
      rcases hkeep hr with hr | ⟨rfl, _⟩
      · exact hdue i hi r hr hkey
      · exact absurd (h.returned_lt _ hi) (Nat.lt_irrefl _)
    · have hverified : Phase.Sound staff p [] (.verified entry.2.1 p.log.length) :=
        ⟨le_rfl, List.forall_mem_nil _, k, u, hlive, hu, hsame,
          fun i hi => hlatest i (hi.trans (Nat.lt_of_not_le hle))⟩
      obtain ⟨_, _, hasof⟩ := hverified.change husers [c.apply old] (List.forall_mem_nil _)
      exact ⟨p.log.length, hasof, fun i hi _ _ _ => h.returned_lt i hi⟩
  · intro check hmem
    exact (h.sound check hmem).change husers _
      fun i hi => h.returned_lt i (h.before_returned check hmem i hi)

theorem keysUnder_sound {s : KeyStore} {stub : Text} {row : KeyRow × UserRow}
    (h : row ∈ keysUnder s stub) :
    row.1 ∈ s.keys.rows ∧ row.1.revoked = false ∧ s.users.find? row.1.userId = some row.2 := by
  obtain ⟨k, hk, hrow⟩ := List.mem_filterMap.mp h
  obtain ⟨u, hu, rfl⟩ := Option.map_eq_some_iff.mp hrow
  obtain ⟨hmem, hlive⟩ := List.mem_filter.mp hk
  exact ⟨hmem, (of_decide_eq_true hlive).2, hu⟩

theorem Process.Inv.step (h : p.Inv staff) {act : Act} (hontime : OnTime p act)
    (hstep : p.step digest verify staff act = some p') : p'.Inv staff := by
  have hstays : ∀ entry ∈ p.cache, entry ∈ p.cache ∨ ∃ logged, AsOf staff p logged entry.2.1 ∧
      ∀ i ∈ p.returned, ∀ r, p.log[i]? = some r → entry.2.1.apiKeyId = some r.id → i < logged :=
    fun _ he => Or.inl he
  cases act with
  | elapse clock =>
    rw [Process.step] at hstep
    split at hstep
    next =>
      cases hstep
      exact ⟨h.current, h.returned_lt, h.before_returned, h.cached, h.sound⟩
    next => cases hstep
  | arrive secret =>
    cases hstep
    refine ⟨h.current, h.returned_lt, ?_, h.cached, ?_⟩
    · intro check hmem
      rcases List.mem_append.mp hmem with hold | hnew
      · exact h.before_returned check hold
      · rw [List.mem_singleton.mp hnew]
        exact fun i hi => hi
    · intro check hmem
      rcases List.mem_append.mp hmem with hold | hnew
      · exact h.sound check hold
      · rw [List.mem_singleton.mp hnew]
        trivial
  | lookup v =>
    rw [Process.step] at hstep
    split at hstep
    next secret before hcheck =>
      have hbefore := h.before_returned _ (List.mem_of_getElem? hcheck)
      generalize hcached : cachedBearerIdentity p.cache (digest secret) p.clock = result at hstep
      obtain ⟨found, cache⟩ := result
      obtain ⟨hsub, hfound⟩ := mem_cached hcached
      cases found with
      | some identity =>
        cases hstep
        obtain ⟨entry, hentry, hsame⟩ := hfound identity rfl
        obtain ⟨logged, hasof, hdue⟩ := h.cached entry hentry
        rw [hsame] at hasof hdue
        exact h.move hcheck (fun e he => Or.inl (hsub e he))
          (hasof.upToDate fun i hi => hdue i (hbefore i hi))
      | none =>
        cases hstep
        exact h.move hcheck (fun e he => Or.inl (hsub e he)) trivial
    next => cases hstep
  | read v rows =>
    rw [Process.step] at hstep
    split at hstep
    next secret before hcheck =>
      split at hstep
      next hperm =>
        cases hstep
        refine h.move hcheck hstays ⟨le_rfl, fun i hi => ?_, fun row hrow => ?_⟩
        · exact h.returned_lt i (h.before_returned _ (List.mem_of_getElem? hcheck) i hi)
        · obtain ⟨hmem, hlive, hu⟩ := keysUnder_sound (hperm.mem_iff.mp hrow)
          exact ⟨hlive, hu, h.current _ hmem⟩
      next => cases hstep
    next => cases hstep
  | check v =>
    rw [Process.step] at hstep
    split at hstep
    next secret before rows logged hcheck =>
      obtain ⟨hle, hbefore, hrows⟩ := h.sound _ (List.mem_of_getElem? hcheck)
      split at hstep
      next =>
        cases hstep
        exact h.move hcheck hstays trivial
      next identity hverified =>
        cases hstep
        obtain ⟨row, hrow, rfl⟩ := Option.map_eq_some_iff.mp hverified
        obtain ⟨hlive, hu, hlatest⟩ := hrows row (List.mem_of_find?_eq_some hrow)
        exact h.move hcheck hstays ⟨hle, hbefore, row.1, row.2, hlive, hu, rfl, hlatest⟩
    next => cases hstep
  | store v =>
    rw [Process.step] at hstep
    split at hstep
    next secret before identity logged hcheck =>
      cases hstep
      obtain ⟨hle, hbefore, hasof⟩ := h.sound _ (List.mem_of_getElem? hcheck)
      refine h.move hcheck (fun entry hentry => ?_) (hasof.upToDate fun i hi _ _ _ => hbefore i hi)
      rcases mem_remember hentry with hold | hsame
      · exact Or.inl hold
      · right
        rw [hsame]
        refine ⟨logged, hasof, lt_of_not_overtaken ?_⟩
        rw [OnTime, hcheck] at hontime
        exact hontime
    next => cases hstep
  | change keyId userId c =>
    rw [Process.step] at hstep
    split at hstep
    next =>
      cases hstep
      exact h
    next store hupdate =>
      cases hstep
      exact h.change hupdate
  | forget i =>
    rw [Process.step] at hstep
    split at hstep
    next => cases hstep
    next k hk =>
      split at hstep
      next => cases hstep
      next =>
        cases hstep
        refine ⟨h.current, ?_, ?_, ?_, h.sound⟩
        · intro j hj
          rcases List.mem_append.mp hj with hold | hnew
          · exact h.returned_lt j hold
          · rw [List.mem_singleton.mp hnew]
            exact (List.getElem?_eq_some_iff.mp hk).1
        · exact fun check hmem j hj => List.mem_append_left _ (h.before_returned check hmem j hj)
        · intro entry hentry
          obtain ⟨hmem, hother⟩ := List.mem_filter.mp hentry
          obtain ⟨logged, hasof, hdue⟩ := h.cached entry hmem
          refine ⟨logged, hasof, fun j hj r hr hkey => ?_⟩
          rcases List.mem_append.mp hj with hold | hnew
          · exact hdue j hold r hr hkey
          · have hr' : p.log[j]? = some r := hr
            rw [List.mem_singleton.mp hnew, hk] at hr'
            cases hr'
            exact absurd hkey (of_decide_eq_true hother)

/-- Where no verification stores what a change that has returned is not in, a request that arrives
after a revoke or a re-tier has returned never gets the identity the key had before. -/
theorem revocation_prompt {store : KeyStore} {clock : ℚ} {trace : List Act}
    (hontime : Trace.Along (Process.step digest verify staff) OnTime
      { store := store, clock := clock } trace)
    (hrun : Trace.run (Process.step digest verify staff) { store := store, clock := clock } trace =
      some p) : p.Prompt staff := by
  have hstart : Process.Inv staff ({ store := store, clock := clock } : Process δ) := by
    refine ⟨fun k _ i hi => ?_, List.forall_mem_nil _, List.forall_mem_nil _, List.forall_mem_nil _,
      List.forall_mem_nil _⟩
    exact absurd hi (Nat.not_lt_zero i)
  have hend := Trace.run_keeps_along (I := fun _ p => p.Inv staff) hstart
    (fun h hallowed hstep => h.step hallowed hstep) hontime hrun
  intro check hmem answer hanswer
  have hsound := hend.sound check hmem
  rw [hanswer] at hsound
  exact hsound

end Runs

def ada : UserRow :=
  { id := 1, email := "ada@example.org".toList, role := .writer }

def herKey : KeyRow :=
  { id := 10, userId := 1, name := ['a'], secretHash := ['h'], stub := ['s'], role := .writer }

def oneKey : KeyStore where
  users := ⟨[ada], by decide⟩
  keys := ⟨[herKey], by decide⟩

def rowsRead : List (KeyRow × UserRow) :=
  keysUnder oneKey ['s']

def hashes (secret hash : Text) : Bool :=
  decide (secret = ['s'] ∧ hash = ['h'])

/-- A verification that ends before its key is revoked, and a request after that. -/
def promptRun : List Act :=
  [.arrive ['s'], .lookup 0, .read 0 rowsRead, .check 0, .store 0, .change 10 1 .revoke,
    .forget 0, .arrive ['s'], .lookup 1, .read 1 [], .check 1]

theorem revocation_prompt_once :
    ∃ p, Trace.run (Process.step id hashes []) { store := oneKey } promptRun = some p ∧
      p.checks.map Check.phase =
        [.answered (some (identityOf [] ada herKey)), .answered none] ∧ p.Prompt [] := by
  have hend : (Trace.run (Process.step id hashes []) { store := oneKey } promptRun).any
      (fun p => decide (p.checks.map Check.phase =
        [.answered (some (identityOf [] ada herKey)), .answered none])) = true := by
    decide +kernel
  obtain ⟨p, hrun, hphases⟩ := (Option.any_eq_true _ _).mp hend
  have hontime : Trace.Along (Process.step id hashes []) OnTime { store := oneKey } promptRun := by
    decide +kernel
  exact ⟨p, hrun, of_decide_eq_true hphases, revocation_prompt hontime hrun⟩

/-- The key is revoked while a verification is between its read and its store. -/
def overtakenRun : List Act :=
  [.arrive ['s'], .lookup 0, .read 0 rowsRead, .check 0, .change 10 1 .revoke, .forget 0,
    .store 0, .arrive ['s'], .lookup 1]

theorem revoked_key_lives :
    ∃ p, Trace.run (Process.step id hashes []) { store := oneKey } overtakenRun = some p ∧
      ¬ p.Prompt [] := by
  have hend : (Trace.run (Process.step id hashes []) { store := oneKey } overtakenRun).any
      (fun p => decide (p.log.all (fun k => k.revoked) = true ∧
        (∃ check ∈ p.checks, check.before = [0] ∧
          check.phase = .answered (some (identityOf [] ada herKey))) ∧
        (p.log[0]?).map KeyRow.id = some 10)) = true := by decide +kernel
  obtain ⟨p, hrun, hfound⟩ := (Option.any_eq_true _ _).mp hend
  obtain ⟨hall, ⟨check, hmem, hbefore, hphase⟩, hlog⟩ := of_decide_eq_true hfound
  refine ⟨p, hrun, fun hprompt => ?_⟩
  obtain ⟨r, hr, hid⟩ := Option.map_eq_some_iff.mp hlog
  have hanswer := hprompt check hmem _ hphase 0 (by rw [hbefore]; exact List.mem_singleton_self 0)
    r hr (by rw [hid]; rfl)
  obtain ⟨j, k, u, _, hj, _, hlive, _⟩ := hanswer
  have hrevoked := List.all_eq_true.mp hall k (List.mem_of_getElem? hj)
  rw [hlive] at hrevoked
  exact absurd hrevoked (by decide)

end Trackinizer.Bearers
