import Mathlib.Logic.Function.Basic
import Mathlib.Logic.Relation
import Trackinizer.ApiKeys
import Trackinizer.Lib.Trace
import Trackinizer.Lib.Transact

namespace Trackinizer.Auth

open Keyed Transact

inductive Request where
  | mint (name : Text) (role : Option Role) (openInto : Option Text) (fresh : FreshKey)
  | retier (keyId : UUID) (role : Role)
  | revoke (keyId : UUID)

/-- What a live key authenticates as. -/
def present (staff : List Text) (s : KeyStore) (keyId : UUID) : Option AuthIdentity :=
  (s.keys.find? keyId).bind fun k =>
    (s.users.find? k.userId).bind fun u =>
      if k.revoked = false ∧ u.active = true then some (identityOf staff u k) else none

def Request.serve (s : KeyStore) (identity : AuthIdentity) : Request → Except KeyError KeyStore
  | .mint name role openInto fresh =>
      (createTokenRoute s identity name role openInto fresh).map Prod.snd
  | .retier keyId role => setTokenRoleRoute s identity keyId role
  | .revoke keyId => revokeTokenRoute s identity keyId

/-- The key that a request mints. -/
def Request.child : Request → Option UUID
  | .mint _ _ _ fresh => some fresh.id
  | .retier _ _ | .revoke _ => none

/-- The key that a request re-tiers or revokes. -/
def Request.target : Request → Option UUID
  | .mint _ _ _ _ => none
  | .retier keyId _ | .revoke keyId => some keyId

/-- The store, with the key that each minted key was minted by. -/
structure KeyRun where
  store : KeyStore
  parent : UUID → Option UUID := fun _ => none

inductive KeyAct where
  | setRole (userId : UUID) (role : Role)
  | request (presenter : UUID) (r : Request)

def setRole (userId : UUID) (role : Role) (u : UserRow) : UserRow :=
  if u.id = userId then { u with role := role } else u

theorem setRole_id (userId : UUID) (role : Role) (u : UserRow) :
    (setRole userId role u).id = u.id := by
  unfold setRole
  split <;> rfl

/-- A request that is refused changes nothing. -/
def KeyRun.step (staff : List Text) (w : KeyRun) : KeyAct → Option KeyRun
  | .setRole userId role => some { w with
      store := { w.store with
        users := w.store.users.update (setRole userId role) (setRole_id userId role) } }
  | .request presenter r =>
      match present staff w.store presenter with
      | none => some w
      | some identity =>
          match r.serve w.store identity with
          | .error _ => some w
          | .ok store => some {
              store := store
              parent := match r.child with
                | none => w.parent
                | some child => Function.update w.parent child (some presenter) }

/-- What a key opens sessions into. -/
def opens (staff : List Text) (s : KeyStore) (k : KeyRow) : Finset Text :=
  match s.users.find? k.userId with
  | none => ∅
  | some u => (keyAudiences (personAudiences staff u.email u.hostedDomain) k.openInto).opening

variable {staff : List Text} {s s' : KeyStore} {w w' : KeyRun} {identity : AuthIdentity}
  {keyId p k : UUID} {r : Request}

theorem present_eq_some (h : present staff s p = some identity) :
    ∃ row u, s.keys.find? p = some row ∧ s.users.find? row.userId = some u ∧ row.id = p ∧
      row.revoked = false ∧ identity = identityOf staff u row := by
  unfold present at h
  obtain ⟨row, hrow, h⟩ := Option.bind_eq_some_iff.mp h
  obtain ⟨u, hu, h⟩ := Option.bind_eq_some_iff.mp h
  split at h
  next hlive =>
    exact ⟨row, u, hrow, hu, Table.find?_key hrow, hlive.1, (Option.some.inj h).symm⟩
  next => cases h

/-- A live key's identity opens what the key does, under its own pin. -/
theorem present_opens (h : present staff s p = some identity) :
    ∃ row, s.keys.find? p = some row ∧ identity.openAudiences = opens staff s row ∧
      identity.pinnedAudience = row.openInto ∧ identity.apiKeyId = some p ∧
      identity.userId = row.userId := by
  obtain ⟨row, u, hrow, hu, hid, _, rfl⟩ := present_eq_some h
  have huser : u.id = row.userId := Table.find?_key hu
  refine ⟨row, hrow, ?_, rfl, by rw [← hid]; rfl, huser⟩
  unfold opens
  rw [hu]
  rfl

/-- A pin that is asked for is one the minter opens; one that is not is the minter's own. -/
theorem mintOpenInto_ok {asked pin : Option Text} (h : mintOpenInto identity asked = .ok pin) :
    (∃ audience ∈ identity.openAudiences, pin = some audience) ∨
      asked = none ∧ pin = if identity.apiKeyId.isSome then identity.pinnedAudience else none := by
  unfold mintOpenInto at h
  split at h
  next audience =>
    split at h
    next hopen =>
      cases h
      exact Or.inl ⟨audience, hopen, rfl⟩
    next => cases h
  next =>
    cases h
    exact Or.inr ⟨rfl, rfl⟩

/-- What a successful mint leaves: one new row, under both of the minter's ceilings. -/
theorem createTokenRoute_ok {name : Text} {role : Option Role} {asked : Option Text}
    {fresh : FreshKey} {row : KeyRow} (hkey : identity.apiKeyId = some p)
    (h : createTokenRoute s identity name role asked fresh = .ok (row, s')) :
    s.keys.insert? row = some s'.keys ∧ s'.users = s.users ∧ row.id = fresh.id ∧
      row.userId = identity.userId ∧ row.role ≤ identity.role ∧
      ((∃ audience ∈ identity.openAudiences, row.openInto = some audience) ∨
        row.openInto = none ∧ identity.pinnedAudience = none) := by
  unfold createTokenRoute at h
  obtain ⟨_, _, h⟩ := except_bind_ok.mp h
  obtain ⟨pin, hpin, h⟩ := except_bind_ok.mp h
  unfold createApiKey at h
  obtain ⟨userRole, _, h⟩ := except_bind_ok.mp h
  dsimp only at h
  split at h
  next => cases h
  next hceiling =>
    obtain ⟨pin', hpin', h⟩ := except_bind_ok.mp h
    split at h
    next => cases h
    next keys hinsert =>
      cases h
      refine ⟨hinsert, rfl, rfl, rfl, ?_, ?_⟩
      · exact (not_lt.mp hceiling).trans (min_le_right _ _)
      · rcases mintOpenInto_ok hpin' with hopen | ⟨hnone, hsame⟩
        · exact Or.inl hopen
        · -- No pin came out of the first check, so the minter has none.
          right
          rw [hkey] at hsame
          rcases mintOpenInto_ok hpin with ⟨audience, _, hsome⟩ | ⟨_, hfirst⟩
          · rw [hnone] at hsome
            cases hsome
          · rw [hkey] at hfirst
            exact ⟨hsame.trans (hfirst.symm.trans hnone), hfirst.symm.trans hnone⟩

theorem liveKey_eq_some {userId : UUID} {row : KeyRow} (h : liveKey s keyId userId = some row) :
    s.keys.find? keyId = some row ∧ row.userId = userId ∧ row.revoked = false := by
  obtain ⟨hrow, hlive⟩ := Option.filter_eq_some_iff.mp h
  exact ⟨hrow, of_decide_eq_true hlive⟩

/-- A pinned caller passes for the keys that open within what it opens. -/
theorem keyWithinCaller_opens (hpresent : present staff s p = some identity)
    (hwithin : keyWithinCaller s identity keyId = true) (hpinned : identity.pinnedAudience ≠ none)
    {row : KeyRow} (hrow : liveKey s keyId identity.userId = some row) :
    opens staff s row ⊆ identity.openAudiences := by
  obtain ⟨own, hown, hopens, _, hkey, huser⟩ := present_opens hpresent
  obtain ⟨hfind, hsame, _⟩ := liveKey_eq_some hrow
  unfold keyWithinCaller at hwithin
  split at hwithin
  next hself =>
    have hid : some p = some keyId := hkey.symm.trans (hself.resolve_left hpinned)
    cases hid
    rw [hown] at hfind
    cases hfind
    rw [hopens]
  next =>
    rw [hrow] at hwithin
    obtain ⟨audience, hpin, hmem⟩ := (Option.any_eq_true _ _).mp hwithin
    unfold opens
    split
    next => exact Finset.empty_subset _
    next u _ =>
      rw [hpin]
      intro a ha
      have hsame : a = audience := Finset.mem_singleton.mp (Finset.mem_inter.mp ha).2
      rw [hsame]
      exact of_decide_eq_true hmem

theorem updateKey_true {userId : UUID} {f : KeyRow → KeyRow} {hf : ∀ row, (f row).id = row.id}
    (h : updateKey s keyId userId f hf = (true, s')) :
    (∃ row, liveKey s keyId userId = some row) ∧ s'.users = s.users ∧
      ∀ id, s'.keys.find? id = (s.keys.find? id).map fun row =>
        if row.id = keyId then f row else row := by
  unfold updateKey at h
  split at h
  next => cases h
  next row hrow =>
    cases h
    exact ⟨⟨row, hrow⟩, rfl, fun id => by rw [Table.find?_update]⟩

/-- A served request stays under the ceilings of the key that presents it. -/
structure Capped (staff : List Text) (s s' : KeyStore) (identity : AuthIdentity) (r : Request) :
    Prop where
  minted : ∀ {child : UUID}, r.child = some child → ∃ row, s.keys.insert? row = some s'.keys ∧
    row.id = child ∧ row.role ≤ identity.role ∧ opens staff s row ⊆ identity.openAudiences
  retiered : ∀ {keyId : UUID} {role : Role}, r = .retier keyId role →
    ∃ row, s'.keys.find? keyId = some row ∧ row.role = role ∧ row.role ≤ identity.role
  within : ∀ {target : UUID}, r.target = some target → identity.pinnedAudience ≠ none →
    ∀ {row : KeyRow}, s.keys.find? target = some row →
      opens staff s row ⊆ identity.openAudiences

theorem setTokenRoleRoute_ok {role : Role} (h : setTokenRoleRoute s identity keyId role = .ok s') :
    keyWithinCaller s identity keyId = true ∧ role ≤ identity.role ∧
      updateKey s keyId identity.userId (fun row => { row with role := role }) (fun _ => rfl) =
        (true, s') := by
  unfold setTokenRoleRoute at h
  obtain ⟨_, _, h⟩ := except_bind_ok.mp h
  split at h
  next hwithin =>
    obtain ⟨⟨updated, s''⟩, hset, h⟩ := except_bind_ok.mp h
    unfold setApiKeyRole at hset
    obtain ⟨userRole, _, hset⟩ := except_bind_ok.mp hset
    dsimp only at hset
    split at hset
    next =>
      split at hset
      next =>
        cases hset
        cases h
      next => cases hset
    next hceiling =>
      have hupdate := Except.ok.inj hset
      cases updated with
      | false => cases h
      | true =>
        cases h
        exact ⟨hwithin, (not_lt.mp hceiling).trans (min_le_right _ _), hupdate⟩
  next => cases h

theorem revokeTokenRoute_ok (h : revokeTokenRoute s identity keyId = .ok s') :
    keyWithinCaller s identity keyId = true ∧
      updateKey s keyId identity.userId (fun row => { row with revoked := true }) (fun _ => rfl) =
        (true, s') := by
  unfold revokeTokenRoute at h
  obtain ⟨_, _, h⟩ := except_bind_ok.mp h
  split at h
  next hwithin =>
    generalize hrevoke : revokeApiKey s keyId identity.userId = result at h
    obtain ⟨updated, s''⟩ := result
    cases updated with
    | false => cases h
    | true =>
      cases h
      exact ⟨hwithin, hrevoke⟩
  next => cases h

/-- A key of the caller's own user that is pinned to an audience of the caller's, or not pinned where
the caller is not, opens into nothing else. -/
theorem opens_of_minted (hpresent : present staff s p = some identity) {row : KeyRow}
    (hsame : row.userId = identity.userId)
    (hinto : (∃ audience ∈ identity.openAudiences, row.openInto = some audience) ∨
      row.openInto = none ∧ identity.pinnedAudience = none) :
    opens staff s row ⊆ identity.openAudiences := by
  obtain ⟨own, hown, hopens, hpin, hkey, huser⟩ := present_opens hpresent
  rw [hopens]
  unfold opens
  rw [hsame, huser]
  split
  next => exact Finset.empty_subset _
  next u hu =>
    rcases hinto with ⟨audience, hmem, hrow⟩ | ⟨hrow, hnone⟩
    · rw [hopens] at hmem
      unfold opens at hmem
      rw [hu] at hmem
      rw [hrow]
      intro a ha
      have hsame : a = audience := Finset.mem_singleton.mp (Finset.mem_inter.mp ha).2
      rw [hsame]
      exact hmem
    · rw [hrow, ← hpin, hnone]

theorem capped_of_serve (hpresent : present staff s p = some identity)
    (h : r.serve s identity = .ok s') : Capped staff s s' identity r := by
  obtain ⟨_, _, _, _, hkey, _⟩ := present_opens hpresent
  -- A pinned caller's target is the live key that its own check saw.
  have htarget : ∀ {keyId : UUID} {f : KeyRow → KeyRow} {hf : ∀ row, (f row).id = row.id},
      keyWithinCaller s identity keyId = true →
      updateKey s keyId identity.userId f hf = (true, s') →
      identity.pinnedAudience ≠ none → ∀ {row : KeyRow}, s.keys.find? keyId = some row →
        opens staff s row ⊆ identity.openAudiences := by
    intro keyId f hf hwithin hupdate hpinned row hrow
    obtain ⟨⟨live, hlive⟩, _, _⟩ := updateKey_true hupdate
    have hsame := (liveKey_eq_some hlive).1
    rw [hrow] at hsame
    cases hsame
    exact keyWithinCaller_opens hpresent hwithin hpinned hlive
  cases r with
  | mint name role asked fresh =>
    cases hroute : createTokenRoute s identity name role asked fresh with
    | error e =>
      rw [Request.serve, hroute] at h
      cases h
    | ok result =>
      obtain ⟨row, s''⟩ := result
      rw [Request.serve, hroute] at h
      cases h
      obtain ⟨hinsert, _, hid, hsame, hrole, hinto⟩ := createTokenRoute_ok hkey hroute
      refine ⟨fun hchild => ?_, fun hretier => (nomatch hretier), fun ht => (nomatch ht)⟩
      cases hchild
      exact ⟨row, hinsert, hid, hrole, opens_of_minted hpresent hsame hinto⟩
  | retier keyId role =>
    obtain ⟨hwithin, hrole, hupdate⟩ := setTokenRoleRoute_ok h
    refine ⟨fun hchild => (nomatch hchild), fun hretier => ?_, fun ht => ?_⟩
    · cases hretier
      obtain ⟨⟨live, hlive⟩, _, hfind⟩ := updateKey_true hupdate
      have hrow := (liveKey_eq_some hlive).1
      refine ⟨{ live with role := role }, ?_, rfl, hrole⟩
      rw [hfind, hrow, Option.map_some, if_pos (Table.find?_key hrow)]
    · cases ht
      exact htarget hwithin hupdate
  | revoke keyId =>
    obtain ⟨hwithin, hupdate⟩ := revokeTokenRoute_ok h
    refine ⟨fun hchild => (nomatch hchild), fun hretier => (nomatch hretier), fun ht => ?_⟩
    cases ht
    exact htarget hwithin hupdate

/-- What a step keeps of a key that is there, and of its owner. -/
structure Grows (staff : List Text) (s s' : KeyStore) : Prop where
  keys : ∀ {id : UUID} {row : KeyRow}, s.keys.find? id = some row →
    ∃ row', s'.keys.find? id = some row' ∧ row'.openInto = row.openInto ∧
      opens staff s' row' = opens staff s row

theorem opens_congr {row row' : KeyRow} (huser : row'.userId = row.userId)
    (hpin : row'.openInto = row.openInto)
    (husers : ∀ id, (s'.users.find? id).map (fun u => (u.email, u.hostedDomain)) =
      (s.users.find? id).map fun u => (u.email, u.hostedDomain)) :
    opens staff s' row' = opens staff s row := by
  have hsame := husers row.userId
  unfold opens
  rw [huser, hpin]
  cases hbefore : s.users.find? row.userId with
  | none =>
    rw [hbefore, Option.map_none, Option.map_eq_none_iff] at hsame
    rw [hsame]
  | some u =>
    rw [hbefore, Option.map_some] at hsame
    obtain ⟨u', hafter, heq⟩ := Option.map_eq_some_iff.mp hsame
    obtain ⟨hemail, hhosted⟩ := Prod.mk.inj heq
    rw [hafter]
    dsimp only
    rw [hemail, hhosted]

theorem grows_of_serve (hpresent : present staff s p = some identity)
    (h : r.serve s identity = .ok s') : Grows staff s s' := by
  obtain ⟨_, _, _, _, hkey, _⟩ := present_opens hpresent
  have hupdated : ∀ {keyId : UUID} {f : KeyRow → KeyRow} {hf : ∀ row, (f row).id = row.id},
      updateKey s keyId identity.userId f hf = (true, s') →
      (∀ row, (f row).userId = row.userId ∧ (f row).openInto = row.openInto) →
        Grows staff s s' := by
    intro keyId f hf hupdate hkeeps
    obtain ⟨_, husers, hfind⟩ := updateKey_true hupdate
    refine ⟨fun {id row} hrow => ?_⟩
    rw [hfind, hrow, Option.map_some]
    refine ⟨_, rfl, ?_, opens_congr ?_ ?_ fun id => by rw [husers]⟩
    · split
      next => exact (hkeeps row).2
      next => rfl
    · split
      next => exact (hkeeps row).1
      next => rfl
    · split
      next => exact (hkeeps row).2
      next => rfl
  cases r with
  | mint name role asked fresh =>
    cases hroute : createTokenRoute s identity name role asked fresh with
    | error e =>
      rw [Request.serve, hroute] at h
      cases h
    | ok result =>
      obtain ⟨row, s''⟩ := result
      rw [Request.serve, hroute] at h
      cases h
      obtain ⟨hinsert, husers, _⟩ := createTokenRoute_ok hkey hroute
      refine ⟨fun {id old} hold => ⟨old, ?_, rfl, opens_congr rfl rfl fun id => by rw [husers]⟩⟩
      rw [Table.find?_insert?_ne hinsert]
      · exact hold
      · rintro rfl
        rw [(Table.insert?_eq_some.mp hinsert).1] at hold
        cases hold
  | retier keyId role =>
    exact hupdated (setTokenRoleRoute_ok h).2.2 fun _ => ⟨rfl, rfl⟩
  | revoke keyId =>
    exact hupdated (revokeTokenRoute_ok h).2 fun _ => ⟨rfl, rfl⟩

/-- Each key that was minted by a pinned one shares its pin, which its minter opens. -/
def KeyRun.Pinned (staff : List Text) (w : KeyRun) : Prop :=
  ∀ (k p : UUID), w.parent k = some p → ∃ child minter, w.store.keys.find? k = some child ∧
    w.store.keys.find? p = some minter ∧ ∀ {audience : Text}, minter.openInto = some audience →
      child.openInto = some audience ∧ audience ∈ opens staff w.store minter

theorem KeyRun.Pinned.grow (h : w.Pinned staff) (hgrows : Grows staff w.store s') :
    KeyRun.Pinned staff { w with store := s' } := by
  intro k p hparent
  obtain ⟨child, minter, hchild, hminter, hpin⟩ := h k p hparent
  obtain ⟨child', hchild', hsame, _⟩ := hgrows.keys hchild
  obtain ⟨minter', hminter', hsame', hopens⟩ := hgrows.keys hminter
  refine ⟨child', minter', hchild', hminter', fun {audience} hinto => ?_⟩
  rw [hsame, hopens]
  exact hpin (hsame'.symm.trans hinto)

/-- A minted key under its minter's pin. -/
theorem pinned_child (hpresent : present staff s p = some identity)
    (h : r.serve s identity = .ok s') (hchild : r.child = some k) :
    ∃ child minter, s'.keys.find? k = some child ∧ s'.keys.find? p = some minter ∧
      ∀ {audience : Text}, minter.openInto = some audience →
        child.openInto = some audience ∧ audience ∈ opens staff s' minter := by
  obtain ⟨own, hown, hopens, hpin, hkey, _⟩ := present_opens hpresent
  obtain ⟨minter, hminter, hsame, hopens'⟩ := (grows_of_serve hpresent h).keys hown
  cases r with
  | mint name role asked fresh =>
    cases hchild
    cases hroute : createTokenRoute s identity name role asked fresh with
    | error e =>
      rw [Request.serve, hroute] at h
      cases h
    | ok result =>
      obtain ⟨row, s''⟩ := result
      rw [Request.serve, hroute] at h
      cases h
      obtain ⟨hinsert, _, hid, _, _, hinto⟩ := createTokenRoute_ok hkey hroute
      refine ⟨row, minter, ?_, hminter, fun {audience} hminted => ?_⟩
      · rw [← hid]
        exact Table.find?_insert?_self hinsert
      · rw [hsame] at hminted
        rw [hopens', ← hopens]
        rcases hinto with ⟨asked', hmem, hrow⟩ | ⟨_, hnone⟩
        · -- The minter opens at most its own pin.
          have hsame' : asked' = audience := by
            have hin := hmem
            rw [hopens] at hin
            unfold opens at hin
            rw [hminted] at hin
            split at hin
            next => exact absurd hin (Finset.notMem_empty _)
            next => exact Finset.mem_singleton.mp (Finset.mem_inter.mp hin).2
          rw [← hsame']
          exact ⟨hrow, hmem⟩
        · rw [hpin, hminted] at hnone
          cases hnone
  | retier keyId role => cases hchild
  | revoke keyId => cases hchild

theorem KeyRun.Pinned.step (h : w.Pinned staff) {act : KeyAct} (hstep : w.step staff act = some w') :
    w'.Pinned staff := by
  cases act with
  | setRole userId role =>
    cases hstep
    refine h.grow ⟨fun {id row} hrow => ⟨row, hrow, rfl, opens_congr rfl rfl fun id => ?_⟩⟩
    rw [Table.find?_update, Option.map_map]
    refine congrArg (fun f => (w.store.users.find? id).map f) (funext fun u => ?_)
    rw [Function.comp_apply]
    unfold setRole
    split
    next => rfl
    next => rfl
  | request presenter r =>
    rw [KeyRun.step] at hstep
    split at hstep
    next =>
      cases hstep
      exact h
    next identity hpresent =>
      split at hstep
      next =>
        cases hstep
        exact h
      next store hserve =>
        cases hstep
        have hgrown := h.grow (grows_of_serve hpresent hserve)
        intro k p hparent
        cases hchild : r.child with
        | none =>
          rw [hchild] at hparent
          exact hgrown k p hparent
        | some child =>
          rw [hchild] at hparent
          dsimp only at hparent
          by_cases hk : k = child
          · rw [hk, Function.update_self] at hparent
            cases hparent
            rw [hk]
            exact pinned_child hpresent hserve hchild
          · rw [Function.update_of_ne hk] at hparent
            exact hgrown k p hparent

/-- The key was minted by the other, or by a key that was, and so on. -/
def KeyRun.Descends (w : KeyRun) : UUID → UUID → Prop :=
  Relation.TransGen fun p k => w.parent k = some p

theorem KeyRun.Pinned.descends (h : w.Pinned staff) (hdescends : w.Descends p k) {row : KeyRow}
    {audience : Text} (hrow : w.store.keys.find? p = some row)
    (hpin : row.openInto = some audience) :
    ∃ row', w.store.keys.find? k = some row' ∧ row'.openInto = some audience ∧
      audience ∈ opens staff w.store row := by
  induction hdescends with
  | single hparent =>
    obtain ⟨child, minter, hchild, hminter, hinto⟩ := h _ _ hparent
    rw [hrow] at hminter
    cases hminter
    exact ⟨child, hchild, hinto hpin⟩
  | tail _ hparent ih =>
    obtain ⟨row', hrow', hpin', hopens⟩ := ih
    obtain ⟨child, minter, hchild, hminter, hinto⟩ := h _ _ hparent
    rw [hrow'] at hminter
    cases hminter
    exact ⟨child, hchild, (hinto hpin').1, hopens⟩

/-- What no run of requests gets past: the role and the audiences of the key that presents each,
and so the pin of a key for all that come from it. -/
structure KeyRun.Contained (staff : List Text) (w : KeyRun) : Prop where
  capped : ∀ {p : UUID} {identity : AuthIdentity} {r : Request} {s' : KeyStore},
    present staff w.store p = some identity → r.serve w.store identity = .ok s' →
      Capped staff w.store s' identity r
  descends : ∀ {p k : UUID}, w.Descends p k → ∀ {row : KeyRow} {audience : Text},
    w.store.keys.find? p = some row → row.openInto = some audience →
    ∃ row', w.store.keys.find? k = some row' ∧ row'.openInto = some audience ∧
      audience ∈ opens staff w.store row
  manages : ∀ {p k : UUID}, k = p ∨ w.Descends p k → ∀ {row : KeyRow} {audience : Text},
    w.store.keys.find? p = some row → row.openInto = some audience →
    ∀ {identity : AuthIdentity} {r : Request} {s' : KeyStore} {target : UUID},
      present staff w.store k = some identity → r.serve w.store identity = .ok s' →
      r.target = some target → ∀ {managed : KeyRow}, w.store.keys.find? target = some managed →
        opens staff w.store managed ⊆ opens staff w.store row

theorem opens_pinned {row : KeyRow} {audience : Text} (h : row.openInto = some audience) :
    opens staff s row ⊆ {audience} := by
  unfold opens
  split
  next => exact Finset.empty_subset _
  next u _ =>
    rw [h]
    exact Finset.inter_subset_right

theorem KeyRun.Pinned.contained (h : w.Pinned staff) : w.Contained staff where
  capped := capped_of_serve
  descends hdescends _ _ hrow hpin := h.descends hdescends hrow hpin
  manages := by
    intro p k hlineage row audience hrow hpin identity r s' target hpresent hserve htarget managed
      hmanaged
    obtain ⟨own, hown, hopens, hpinned, _⟩ := present_opens hpresent
    have hinto : own.openInto = some audience ∧
        opens staff w.store own ⊆ opens staff w.store row := by
      rcases hlineage with rfl | hdescends
      · rw [hown] at hrow
        cases hrow
        exact ⟨hpin, Finset.Subset.refl _⟩
      · obtain ⟨row', hrow', hpin', hmem⟩ := h.descends hdescends hrow hpin
        rw [hown] at hrow'
        cases hrow'
        exact ⟨hpin', (opens_pinned hpin').trans (Finset.singleton_subset_iff.mpr hmem)⟩
    have hsome : identity.pinnedAudience ≠ none := by
      rw [hpinned, hinto.1]
      exact Option.some_ne_none _
    have hwithin := (capped_of_serve hpresent hserve).within htarget hsome hmanaged
    rw [hopens] at hwithin
    exact hwithin.trans hinto.2

/-- Whatever keys there are at the start, and whatever is asked with them while roles change: no
request escalates a key. -/
theorem keys_never_escalate {store : KeyStore} {trace : List KeyAct}
    (hrun : Trace.run (KeyRun.step staff) { store := store } trace = some w) :
    w.Contained staff := by
  have hstart : KeyRun.Pinned staff { store := store } := by
    intro k p hparent
    cases hparent
  exact (Trace.run_keeps_from (I := KeyRun.Pinned staff) hstart (fun h hstep => h.step hstep)
    hrun).contained

def campaign : KeyStore where
  users := ⟨[{ id := 1, email := "ada@example.org".toList, role := .writer }], by decide⟩
  keys := ⟨[{ id := 10, userId := 1, name := ['a'], secretHash := [], stub := [], role := .admin },
    { id := 11, userId := 1, name := ['b'], secretHash := [], stub := [], role := .viewer,
      openInto := some openAudience }], by decide⟩

/-- A pinned key mints one that mints another; neither they nor it can touch the unpinned key. -/
theorem keys_never_escalate_chain : ∃ w, Trace.run (KeyRun.step []) { store := campaign }
      [.request 11 (.mint ['c'] none none ⟨12, [], []⟩),
        .request 12 (.mint ['d'] none (some openAudience) ⟨13, [], []⟩),
        .request 13 (.revoke 10), .request 13 (.mint ['e'] (some .writer) none ⟨14, [], []⟩),
        .setRole 1 .viewer, .request 10 (.retier 11 .writer), .request 12 (.revoke 11)] = some w ∧
    w.store.keys.rows.map (fun k => (k.id, k.role, k.revoked)) =
      [(10, .admin, false), (11, .viewer, true), (12, .viewer, false), (13, .viewer, false)] ∧
    w.Contained [] := by
  have hend : (Trace.run (KeyRun.step []) { store := campaign }
      [.request 11 (.mint ['c'] none none ⟨12, [], []⟩),
        .request 12 (.mint ['d'] none (some openAudience) ⟨13, [], []⟩),
        .request 13 (.revoke 10), .request 13 (.mint ['e'] (some .writer) none ⟨14, [], []⟩),
        .setRole 1 .viewer, .request 10 (.retier 11 .writer), .request 12 (.revoke 11)]).any
        (fun w => decide (w.store.keys.rows.map (fun k => (k.id, k.role, k.revoked)) =
          [(10, .admin, false), (11, .viewer, true), (12, .viewer, false), (13, .viewer, false)])) =
        true := by decide +kernel
  obtain ⟨w, hrun, hrows⟩ := (Option.any_eq_true _ _).mp hend
  exact ⟨w, hrun, of_decide_eq_true hrows, keys_never_escalate hrun⟩

end Trackinizer.Auth
