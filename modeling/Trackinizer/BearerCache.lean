import Mathlib.Algebra.Order.Ring.Rat
import Mathlib.Data.List.MinMax
import Trackinizer.ApiKeys
import Trackinizer.Lib.PyDict

namespace Trackinizer.Bearers

open Keyed Auth

def bearerTtl : ℚ := 60

def bearerMaxEntries : Nat := 10000

/-- `_verified_bearers`: by a secret's digest its identity and when the entry expires. -/
abbrev Cache (δ : Type) := List (δ × AuthIdentity × ℚ)

/-- A verification; `rows` are the rows it read when the log of changes was so long. -/
inductive Phase where
  | arrived
  | missed
  | read (rows : List (KeyRow × UserRow)) (logged : Nat)
  | verified (identity : AuthIdentity) (logged : Nat)
  | answered (identity : Option AuthIdentity)
  deriving DecidableEq

/-- A request with a bearer secret, and the changes that had returned when it arrived. -/
structure Check where
  secret : Text
  before : List Nat
  phase : Phase := .arrived
  deriving DecidableEq

/-- One server process: its store, every change of a key in the order they committed, those whose
requests have returned, the cache and the requests. -/
structure Process (δ : Type) where
  store : KeyStore
  log : List KeyRow := []
  returned : List Nat := []
  cache : Cache δ := []
  clock : ℚ := 0
  checks : List Check := []

/-- A change of one key. -/
inductive Change where
  | retier (role : Role)
  | revoke

def Change.apply : Change → KeyRow → KeyRow
  | .retier role, k => { k with role := role }
  | .revoke, k => { k with revoked := true }

theorem Change.apply_id (c : Change) (k : KeyRow) : (c.apply k).id = k.id := by
  cases c <;> rfl

section Model

variable {δ : Type} [DecidableEq δ]

def cachedBearerIdentity (cache : Cache δ) (digest : δ) (now : ℚ) :
    Option AuthIdentity × Cache δ :=
  match PyDict.get cache digest with
  | none => (none, cache)
  | some (identity, expiresAt) =>
      if expiresAt ≤ now then (none, PyDict.pop cache digest) else (some identity, cache)

/-- The entry that makes room for another. -/
def evictSoonest (cache : Cache δ) : Cache δ :=
  match cache.argmin (fun entry => entry.2.2) with
  | none => cache
  | some entry => PyDict.pop cache entry.1

def rememberBearerIdentity (cache : Cache δ) (digest : δ) (identity : AuthIdentity) (now : ℚ) :
    Cache δ :=
  let room :=
    if (PyDict.get cache digest).isNone ∧ bearerMaxEntries ≤ cache.length then evictSoonest cache
    else cache
  PyDict.set room digest (identity, now + bearerTtl)

def forgetBearerIdentityForKey (cache : Cache δ) (keyId : UUID) : Cache δ :=
  cache.filter fun entry => decide (entry.2.1.apiKeyId ≠ some keyId)

/-- The live keys under a secret's first characters, with their users. -/
def keysUnder (s : KeyStore) (stub : Text) : List (KeyRow × UserRow) :=
  (s.keys.rows.filter fun k => decide (k.stub = stub ∧ k.revoked = false)).filterMap fun k =>
    (s.users.find? k.userId).map fun u => (k, u)

/-- The first row whose hash the secret verifies and whose user is active. -/
def verifyRows (verify : Text → Text → Bool) (staff : List Text) (secret : Text)
    (rows : List (KeyRow × UserRow)) : Option AuthIdentity :=
  (rows.find? fun row => verify secret row.1.secretHash && row.2.active).map fun row =>
    identityOf staff row.2 row.1

def Process.move (p : Process δ) (v : Nat) (secret : Text) (before : List Nat) (phase : Phase) :
    Process δ :=
  { p with checks := p.checks.set v ⟨secret, before, phase⟩ }

inductive Act where
  | elapse (clock : ℚ)
  | arrive (secret : Text)
  | lookup (v : Nat)
  | read (v : Nat) (rows : List (KeyRow × UserRow))
  | check (v : Nat)
  | store (v : Nat)
  | change (keyId userId : UUID) (c : Change)
  | forget (i : Nat)

def tokenPrefixLen : Nat := 12

/-- `_resolve_identity` a step at a time, with the commits of the revoke and re-tier routes and
the steps in which each forgets the key's identity and returns. -/
def Process.step (digest : Text → δ) (verify : Text → Text → Bool) (staff : List Text)
    (p : Process δ) : Act → Option (Process δ)
  | .elapse clock => if p.clock ≤ clock then some { p with clock := clock } else none
  | .arrive secret =>
      some { p with checks := p.checks ++ [{ secret := secret, before := p.returned }] }
  | .lookup v =>
      match p.checks[v]? with
      | some { secret, before, phase := .arrived } =>
          match cachedBearerIdentity p.cache (digest secret) p.clock with
          | (some identity, cache) =>
              some ({ p with cache := cache }.move v secret before
                (.answered (some identity)))
          | (none, cache) =>
              some ({ p with cache := cache }.move v secret before .missed)
      | _ => none
  | .read v rows =>
      match p.checks[v]? with
      | some { secret, before, phase := .missed } =>
          if rows.Perm (keysUnder p.store (secret.take tokenPrefixLen)) then
            some (p.move v secret before (.read rows p.log.length))
          else none
      | _ => none
  | .check v =>
      match p.checks[v]? with
      | some { secret, before, phase := .read rows logged } =>
          match verifyRows verify staff secret rows with
          | none => some (p.move v secret before (.answered none))
          | some identity => some (p.move v secret before (.verified identity logged))
      | _ => none
  | .store v =>
      match p.checks[v]? with
      | some { secret, before, phase := .verified identity _ } =>
          some ({ p with
            cache := rememberBearerIdentity p.cache (digest secret) identity p.clock }.move v
              secret before (.answered (some identity)))
      | _ => none
  | .change keyId userId c =>
      match updateKey p.store keyId userId c.apply c.apply_id with
      | (false, _) => some p
      | (true, store) =>
          some { p with store := store, log := p.log ++ (store.keys.find? keyId).toList }
  | .forget i =>
      match p.log[i]? with
      | none => none
      | some k =>
          if i ∈ p.returned then none
          else some { p with
            returned := p.returned ++ [i]
            cache := forgetBearerIdentityForKey p.cache k.id }

end Model

end Trackinizer.Bearers
