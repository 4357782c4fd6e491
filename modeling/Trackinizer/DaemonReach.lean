import Trackinizer.DaemonServe
import Trackinizer.Lib.Trace

namespace Trackinizer.Daemons

variable {s s' : System} {p p' : Process} {file file' : Option Nat} {i : Nat}

/-- Nothing has begun to leave, and no request has been taken. -/
structure Process.Young (p : Process) : Prop where
  shuttingDown : p.shuttingDown = false
  retiring : p.retiring = none
  retired : p.retired = false
  shutdownRequest : p.shutdownRequest = false
  handling : p.handling = []

/-- No connection made before the daemon retired is lost. -/
def Process.Kept (p : Process) : Prop :=
  ∀ c ∈ p.early, c ∈ p.queue ∨ c ∈ p.handling ∨ c ∈ p.served

/-- The same with none of them left in the queue. -/
def Process.Taken (p : Process) : Prop :=
  ∀ c ∈ p.early, c ∈ p.handling ∨ c ∈ p.served

/-- The file at the path is another's, or there is none. -/
structure Process.OffAir (file : Option Nat) (ino : Nat) (p : Process) : Prop where
  file : file ≠ some ino
  shuttingDown : p.shuttingDown = true
  retired : p.retired = true

/-- While it accepts a daemon has not begun to retire, is about to, or has. -/
def Process.Accepting (file : Option Nat) (ino : Nat) (p : Process) : Prop :=
  (file = some ino ∧ p.shuttingDown = false ∧ p.retiring = none ∧ p.retired = false ∧
    p.shutdownRequest = false) ∨
  (file = some ino ∧ p.shuttingDown = true ∧ (∃ r, p.retiring = some r ∧ r.caller ≠ .final) ∧
    p.retired = false ∧ p.shutdownRequest = false) ∨
  (p.OffAir file ino ∧ p.retiring = none)

/-- What is known of a process in each of its phases. -/
def Process.Sound (file : Option Nat) (p : Process) : Prop :=
  match p.phase with
  | .binding _ | .probing _ | .clearing _ => p.sock = none ∧ p.early = [] ∧ p.Young
  | .bound _ => ∃ ino, p.sock = some ino ∧ file = some ino ∧ p.early = [] ∧ p.Young
  | .listened _ => ∃ ino, p.sock = some ino ∧ file = some ino ∧ p.Kept ∧ p.Young
  | .serving => ∃ ino, p.sock = some ino ∧ p.inode = some ino ∧ p.Kept ∧ p.Accepting file ino
  | .ending => ∃ ino, p.sock = some ino ∧ p.inode = some ino ∧ p.Kept ∧ p.OffAir file ino ∧
      p.retiring = some ⟨.final, false⟩
  | .draining => ∃ ino, p.sock = some ino ∧ p.Kept ∧ p.OffAir file ino ∧ p.retiring = none
  | .closing => ∃ ino, p.sock = some ino ∧ p.Taken ∧ p.OffAir file ino ∧ p.retiring = none
  | .joining => p.sock = none ∧ p.Taken ∧ p.shuttingDown = true ∧ p.retiring = none
  | .left => p.sock = none ∧ p.Taken ∧ p.handling = [] ∧ p.retiring = none

structure System.Inv (s : System) : Prop where
  sound : ∀ p ∈ s.processes, p.Sound s.file
  apart : ∀ (i j : Nat) (p q : Process) (ino : Nat), s.processes[i]? = some p →
    s.processes[j]? = some q → p.sock = some ino → q.sock = some ino → i = j
  cleared : ∀ p ∈ s.processes, ∀ n, p.phase = .clearing n →
    ∀ q ∈ s.processes, q.sock = s.file → q.sock = none

theorem Process.OffAir.congr {ino : Nat} (h : p.OffAir file ino)
    (hfile : file = some ino ↔ file' = some ino) : p.OffAir file' ino :=
  ⟨fun h' => h.file (hfile.mpr h'), h.shuttingDown, h.retired⟩

/-- A process only asks of the path whether its own socket is there. -/
theorem Process.Sound.congr (h : p.Sound file)
    (hfile : ∀ ino, p.sock = some ino → (file = some ino ↔ file' = some ino)) :
    p.Sound file' := by
  unfold Process.Sound at h ⊢
  cases hphase : p.phase <;> rw [hphase] at h <;> dsimp only at h ⊢
  case binding | probing | clearing | joining | left => exact h
  case bound | listened =>
    obtain ⟨ino, hsock, hpath, hrest⟩ := h
    exact ⟨ino, hsock, (hfile ino hsock).mp hpath, hrest⟩
  case serving =>
    obtain ⟨ino, hsock, hinode, hkept, haccepting⟩ := h
    refine ⟨ino, hsock, hinode, hkept, ?_⟩
    rcases haccepting with ⟨hpath, hrest⟩ | ⟨hpath, hrest⟩ | ⟨hoff, hrest⟩
    · exact Or.inl ⟨(hfile ino hsock).mp hpath, hrest⟩
    · exact Or.inr (Or.inl ⟨(hfile ino hsock).mp hpath, hrest⟩)
    · exact Or.inr (Or.inr ⟨hoff.congr (hfile ino hsock), hrest⟩)
  case ending =>
    obtain ⟨ino, hsock, hinode, hkept, hoff, hrest⟩ := h
    exact ⟨ino, hsock, hinode, hkept, hoff.congr (hfile ino hsock), hrest⟩
  case draining | closing =>
    obtain ⟨ino, hsock, hkept, hoff, hrest⟩ := h
    exact ⟨ino, hsock, hkept, hoff.congr (hfile ino hsock), hrest⟩

/-- A turn that opens no socket and takes no file but its own or a dead one off the path. -/
theorem System.Inv.put (h : s.Inv) (hp : s.processes[i]? = some p)
    (hsock : p'.sock = p.sock ∨ p'.sock = none) (hsound : p'.Sound file')
    (hfile : file' = s.file ∨ file' = none ∧
      ∀ (j : Nat) (q : Process), j ≠ i → s.processes[j]? = some q → q.sock = s.file → q.sock = none)
    (hclear : ∀ n, p'.phase = .clearing n → ∀ q ∈ s.processes, q.sock = s.file → q.sock = none) :
    (s.put i file' p').Inv where
  sound := by
    intro q hq
    obtain ⟨j, hj⟩ := List.mem_iff_getElem?.mp hq
    by_cases hji : j = i
    · subst hji
      rw [System.put, List.getElem?_set_self (List.getElem?_eq_some_iff.mp hp).1] at hj
      cases hj
      exact hsound
    · rw [System.put, List.getElem?_set_ne (Ne.symm hji)] at hj
      refine (h.sound q (List.mem_of_getElem? hj)).congr fun ino hino => ?_
      rcases hfile with hsame | ⟨hnone, hothers⟩
      · exact Iff.of_eq (by rw [show (s.put i file' p').file = s.file from hsame])
      · have hoff : s.file ≠ some ino := by
          intro hpath
          have hgone := hothers j q hji hj (hino.trans hpath.symm)
          rw [hgone] at hino
          cases hino
        exact iff_of_false hoff (by rw [show (s.put i file' p').file = none from hnone]; nofun)
  apart := by
    have hback : ∀ (j : Nat) (q : Process) (ino : Nat), (s.put i file' p').processes[j]? = some q →
        q.sock = some ino → ∃ r, s.processes[j]? = some r ∧ r.sock = some ino := by
      intro j q ino hj hino
      by_cases hji : j = i
      · subst hji
        rw [System.put, List.getElem?_set_self (List.getElem?_eq_some_iff.mp hp).1] at hj
        cases hj
        rcases hsock with hsame | hnone
        · exact ⟨p, hp, hsame ▸ hino⟩
        · rw [hnone] at hino
          cases hino
      · rw [System.put, List.getElem?_set_ne (Ne.symm hji)] at hj
        exact ⟨q, hj, hino⟩
    intro j k q r ino hj hk hq hr
    obtain ⟨q', hj', hq'⟩ := hback j q ino hj hq
    obtain ⟨r', hk', hr'⟩ := hback k r ino hk hr
    exact h.apart j k q' r' ino hj' hk' hq' hr'
  cleared := by
    intro q hq n hn r hr hpath
    rcases hfile with hsame | ⟨hnone, _⟩
    · have hdead : ∀ t ∈ s.processes, t.sock = s.file → t.sock = none := by
        rcases List.mem_or_eq_of_mem_set hq with hold | rfl
        · exact h.cleared q hold n hn
        · exact hclear n hn
      have hpath' : r.sock = s.file := hpath.trans hsame
      rcases List.mem_or_eq_of_mem_set hr with hold | rfl
      · exact hdead r hold hpath'
      · rcases hsock with hown | hgone
        · rw [hown] at hpath' ⊢
          exact hdead p (List.mem_of_getElem? hp) hpath'
        · exact hgone
    · exact hpath.trans hnone

theorem Process.Kept.processRequest (h : p.Kept) {c : Nat} {rest : List Nat}
    (hqueue : p.queue = c :: rest) : (p.processRequest c rest).Kept := by
  intro d hd
  rcases h d hd with hwaits | hhandled | hserved
  · rw [hqueue] at hwaits
    rcases List.mem_cons.mp hwaits with rfl | hrest
    · exact Or.inr (Or.inl (List.mem_append_right _ (List.mem_singleton_self d)))
    · exact Or.inl hrest
  · exact Or.inr (Or.inl (List.mem_append_left _ hhandled))
  · exact Or.inr (Or.inr hserved)

theorem Process.Kept.enqueue (h : p.Kept) (c : Nat) : (p.enqueue c).Kept := by
  intro d hd
  have hcases : d ∈ p.early ∨ d = c := by
    rw [Process.enqueue] at hd
    dsimp only at hd
    split at hd
    next => exact Or.inl hd
    next =>
      rcases List.mem_append.mp hd with hold | hnew
      · exact Or.inl hold
      · exact Or.inr (List.mem_singleton.mp hnew)
  rcases hcases with hold | rfl
  · rcases h d hold with hwaits | hrest
    · exact Or.inl (List.mem_append_left _ hwaits)
    · exact Or.inr hrest
  · exact Or.inl (List.mem_append_right _ (List.mem_singleton_self d))

/-- A daemon that has room is listening, and only its queue grows. -/
theorem Process.Sound.enqueue (h : p.Sound file) (hroom : p.hasRoom = true) (c : Nat) :
    (p.enqueue c).Sound file := by
  have hlistening : p.listening = true := (Bool.and_eq_true_iff.mp hroom).1
  unfold Process.listening at hlistening
  unfold Process.Sound at h ⊢
  have hsame : (p.enqueue c).phase = p.phase := rfl
  rw [hsame]
  cases hphase : p.phase <;> rw [hphase] at h hlistening <;> dsimp only at h hlistening ⊢
  case binding | bound | probing | clearing | joining | left => cases hlistening
  case listened =>
    obtain ⟨ino, hsock, hpath, hkept, hyoung⟩ := h
    exact ⟨ino, hsock, hpath, hkept.enqueue c, ⟨hyoung.1, hyoung.2, hyoung.3, hyoung.4, hyoung.5⟩⟩
  case serving =>
    obtain ⟨ino, hsock, hinode, hkept, haccepting⟩ := h
    refine ⟨ino, hsock, hinode, hkept.enqueue c, ?_⟩
    rcases haccepting with hon | hgoing | ⟨hoff, hrest⟩
    · exact Or.inl hon
    · exact Or.inr (Or.inl hgoing)
    · exact Or.inr (Or.inr ⟨⟨hoff.1, hoff.2, hoff.3⟩, hrest⟩)
  case ending =>
    obtain ⟨ino, hsock, hinode, hkept, hoff, hrest⟩ := h
    exact ⟨ino, hsock, hinode, hkept.enqueue c, ⟨hoff.1, hoff.2, hoff.3⟩, hrest⟩
  case draining =>
    obtain ⟨ino, hsock, hkept, hoff, hrest⟩ := h
    exact ⟨ino, hsock, hkept.enqueue c, ⟨hoff.1, hoff.2, hoff.3⟩, hrest⟩
  case closing =>
    obtain ⟨ino, hsock, htaken, hoff, hrest⟩ := h
    refine ⟨ino, hsock, ?_, ⟨hoff.1, hoff.2, hoff.3⟩, hrest⟩
    intro d hd
    rw [Process.enqueue, if_pos hoff.retired] at hd
    exact htaken d hd

theorem System.Inv.connect (h : s.Inv) (hstep : s.connect i = some s') : s'.Inv := by
  unfold System.connect at hstep
  split at hstep
  · cases hstep
  next p hp =>
    split at hstep
    next hroom =>
      cases hstep
      have hsound := (h.sound p (List.mem_of_getElem? hp)).enqueue hroom s.conns
      have hput : (s.put i s.file (p.enqueue s.conns)).Inv := by
        refine h.put hp (Or.inl rfl) hsound (Or.inl rfl) fun n hn => ?_
        exact h.cleared p (List.mem_of_getElem? hp) n hn
      exact ⟨hput.sound, hput.apart, hput.cleared⟩
    next => cases hstep

theorem Process.beginShutdown_same (p : Process) (caller : Caller) :
    (p.beginShutdown caller).phase = p.phase ∧ (p.beginShutdown caller).sock = p.sock ∧
      (p.beginShutdown caller).inode = p.inode ∧ (p.beginShutdown caller).handling = p.handling ∧
      ((p.beginShutdown caller).Kept ↔ p.Kept) := by
  unfold Process.beginShutdown
  split <;> exact ⟨rfl, rfl, rfl, rfl, Iff.rfl⟩

theorem Process.Accepting.beginShutdown {ino : Nat} {caller : Caller} (hcaller : caller ≠ .final)
    (h : p.Accepting file ino) : (p.beginShutdown caller).Accepting file ino := by
  rcases h with ⟨hpath, hshut, hnone, hretired, hrequest⟩ | ⟨hpath, hshut, hrest⟩ | ⟨hoff, hrest⟩
  · rw [Process.beginShutdown, if_neg (by rw [hshut]; exact Bool.false_ne_true)]
    exact Or.inr (Or.inl ⟨hpath, rfl, ⟨_, rfl, hcaller⟩, hretired, hrequest⟩)
  · rw [Process.beginShutdown, if_pos hshut]
    exact Or.inr (Or.inl ⟨hpath, hshut, hrest⟩)
  · rw [Process.beginShutdown, if_pos hoff.shuttingDown]
    exact Or.inr (Or.inr ⟨hoff, hrest⟩)

theorem Process.Sound.beginShutdown {caller : Caller} (h : p.Sound file)
    (hcaller : caller ≠ .final) (hphase : p.phase = .serving ∨ p.shuttingDown = true) :
    (p.beginShutdown caller).Sound file := by
  rcases hphase with hserving | hshut
  · obtain ⟨hsame, hsock', hinode', _, hkept'⟩ := p.beginShutdown_same caller
    unfold Process.Sound at h ⊢
    rw [hserving] at h
    rw [hsame, hserving]
    obtain ⟨ino, hsock, hinode, hkept, haccepting⟩ := h
    exact ⟨ino, hsock'.trans hsock, hinode'.trans hinode, hkept'.mpr hkept,
      haccepting.beginShutdown hcaller⟩
  · rw [Process.beginShutdown, if_pos hshut]
    exact h

theorem Process.mem_reply {c d : Nat} (h : d ∈ p.handling ∨ d ∈ p.served) :
    d ∈ (p.reply c).handling ∨ d ∈ (p.reply c).served := by
  rcases h with hhandled | hserved
  · by_cases hdc : d = c
    · exact Or.inr (List.mem_append_right _ (List.mem_singleton.mpr hdc))
    · exact Or.inl ((List.mem_erase_of_ne hdc).mpr hhandled)
  · exact Or.inr (List.mem_append_left _ hserved)

theorem Process.Kept.reply (h : p.Kept) (c : Nat) : (p.reply c).Kept := by
  intro d hd
  rcases h d hd with hwaits | htaken
  · exact Or.inl hwaits
  · exact Or.inr (Process.mem_reply htaken)

theorem Process.Taken.reply (h : p.Taken) (c : Nat) : (p.reply c).Taken :=
  fun d hd => Process.mem_reply (h d hd)

/-- A daemon with a request in hand is accepting or has begun to shut down. -/
theorem Process.Sound.busy (h : p.Sound file) {c : Nat} (hc : c ∈ p.handling) :
    (p.phase = .serving ∨ p.shuttingDown = true) ∧ ∀ n, p.phase ≠ .clearing n := by
  have hbusy : p.handling ≠ [] := List.ne_nil_of_mem hc
  unfold Process.Sound at h
  cases hphase : p.phase <;> rw [hphase] at h <;> dsimp only at h
  case binding | probing | clearing => exact absurd h.2.2.handling hbusy
  case bound | listened =>
    obtain ⟨ino, _, _, _, hyoung⟩ := h
    exact absurd hyoung.handling hbusy
  case left => exact absurd h.2.2.1 hbusy
  case serving => exact ⟨Or.inl rfl, nofun⟩
  case ending =>
    obtain ⟨_, _, _, _, hoff, _⟩ := h
    exact ⟨Or.inr hoff.shuttingDown, nofun⟩
  case draining | closing =>
    obtain ⟨_, _, _, hoff, _⟩ := h
    exact ⟨Or.inr hoff.shuttingDown, nofun⟩
  case joining => exact ⟨Or.inr h.2.2.1, nofun⟩

theorem Process.Sound.reply (h : p.Sound file) {c : Nat} (hc : c ∈ p.handling) :
    (p.reply c).Sound file := by
  have hbusy : p.handling ≠ [] := List.ne_nil_of_mem hc
  unfold Process.Sound at h ⊢
  rw [show (p.reply c).phase = p.phase from rfl]
  cases hphase : p.phase <;> rw [hphase] at h <;> dsimp only at h ⊢
  case binding | probing | clearing => exact absurd h.2.2.handling hbusy
  case bound | listened =>
    obtain ⟨ino, _, _, _, hyoung⟩ := h
    exact absurd hyoung.handling hbusy
  case left => exact absurd h.2.2.1 hbusy
  case serving =>
    obtain ⟨ino, hsock, hinode, hkept, haccepting⟩ := h
    refine ⟨ino, hsock, hinode, hkept.reply c, ?_⟩
    rcases haccepting with hon | hgoing | ⟨hoff, hrest⟩
    · exact Or.inl hon
    · exact Or.inr (Or.inl hgoing)
    · exact Or.inr (Or.inr ⟨⟨hoff.1, hoff.2, hoff.3⟩, hrest⟩)
  case ending =>
    obtain ⟨ino, hsock, hinode, hkept, hoff, hrest⟩ := h
    exact ⟨ino, hsock, hinode, hkept.reply c, ⟨hoff.1, hoff.2, hoff.3⟩, hrest⟩
  case draining =>
    obtain ⟨ino, hsock, hkept, hoff, hrest⟩ := h
    exact ⟨ino, hsock, hkept.reply c, ⟨hoff.1, hoff.2, hoff.3⟩, hrest⟩
  case closing =>
    obtain ⟨ino, hsock, htaken, hoff, hrest⟩ := h
    exact ⟨ino, hsock, htaken.reply c, ⟨hoff.1, hoff.2, hoff.3⟩, hrest⟩
  case joining =>
    obtain ⟨hsock, htaken, hrest⟩ := h
    exact ⟨hsock, htaken.reply c, hrest⟩

/-- What a turn of a bound daemon keeps, with what it does to the path. -/
structure Process.Turned (file : Option Nat) (p : Process) (file' : Option Nat) (p' : Process) :
    Prop where
  sound : p'.Sound file'
  sock : p'.sock = p.sock ∨ p'.sock = none
  file : file' = file ∨ file' = none ∧ ∃ ino, p.sock = some ino ∧ file = some ino
  phase : ∀ n, p'.phase ≠ .clearing n

/-- A retire is under way in a daemon that has its file at the path, or whose loop has ended and
left without it. -/
theorem Process.Sound.retiring (h : p.Sound file) {r : Retire} (hr : p.retiring = some r) :
    ∃ ino, p.sock = some ino ∧ p.inode = some ino ∧ p.Kept ∧ p.shuttingDown = true ∧
      ((p.phase = .serving ∧ r.caller ≠ .final ∧ file = some ino ∧ p.retired = false ∧
        p.shutdownRequest = false) ∨
      (p.phase = .ending ∧ r = ⟨.final, false⟩ ∧ file ≠ some ino)) := by
  unfold Process.Sound at h
  cases hphase : p.phase <;> rw [hphase] at h <;> dsimp only at h
  case binding | probing | clearing => exact absurd (h.2.2.retiring.symm.trans hr) nofun
  case bound | listened =>
    obtain ⟨ino, _, _, _, hyoung⟩ := h
    exact absurd (hyoung.retiring.symm.trans hr) nofun
  case draining | closing =>
    obtain ⟨_, _, _, _, hnone⟩ := h
    exact absurd (hnone.symm.trans hr) nofun
  case joining | left => exact absurd (h.2.2.2.symm.trans hr) nofun
  case serving =>
    obtain ⟨ino, hsock, hinode, hkept, haccepting⟩ := h
    rcases haccepting with hon | ⟨hpath, hshut, ⟨r', hr', hcaller⟩, hrest⟩ | ⟨_, hnone⟩
    · exact absurd (hon.2.2.1.symm.trans hr) nofun
    · cases hr'.symm.trans hr
      exact ⟨ino, hsock, hinode, hkept, hshut, Or.inl ⟨rfl, hcaller, hpath, hrest⟩⟩
    · exact absurd (hnone.symm.trans hr) nofun
  case ending =>
    obtain ⟨ino, hsock, hinode, hkept, hoff, hfinal⟩ := h
    cases hfinal.symm.trans hr
    exact ⟨ino, hsock, hinode, hkept, hoff.shuttingDown, Or.inr ⟨rfl, rfl, hoff.file⟩⟩

/-- Where a retire ends with the daemon's file not at the path, the daemon goes on without it. -/
theorem Process.Sound.retireDone (h : p.Sound file) {r : Retire} (hr : p.retiring = some r)
    (hoff : ∀ ino, p.sock = some ino → file' ≠ some ino) :
    (p.retireDone r.caller).Sound file' ∧ (p.retireDone r.caller).sock = p.sock ∧
      ∀ n, (p.retireDone r.caller).phase ≠ .clearing n := by
  obtain ⟨ino, hsock, hinode, hkept, hshut, ⟨hphase, hcaller, _⟩ | ⟨_, rfl, _⟩⟩ := h.retiring hr
  · have hdone : p.retireDone r.caller =
        { p with retiring := none, retired := true, shutdownRequest := true } := by
      unfold Process.retireDone
      split
      next hfinal => exact absurd hfinal hcaller
      next => rfl
    rw [hdone]
    refine ⟨?_, rfl, fun n hn => ?_⟩
    · unfold Process.Sound
      dsimp only
      rw [hphase]
      exact ⟨ino, hsock, hinode, hkept, Or.inr (Or.inr ⟨⟨hoff ino hsock, hshut, rfl⟩, rfl⟩)⟩
    · cases hphase.symm.trans hn
  · exact ⟨⟨ino, hsock, hkept, ⟨hoff ino hsock, hshut, rfl⟩, rfl⟩, rfl, nofun⟩

theorem Process.Sound.serveTurn {turn : ServeTurn} (h : p.Sound file)
    (hstep : p.serveTurn file turn = some (file', p')) : p.Turned file file' p' := by
  cases turn with
  | accept =>
    simp only [Process.serveTurn] at hstep
    split at hstep
    next c rest hphase hqueue =>
      split at hstep
      next =>
        cases hstep
        have hserving := h
        unfold Process.Sound at hserving
        rw [hphase] at hserving
        obtain ⟨ino, hsock, hinode, hkept, haccepting⟩ := hserving
        refine ⟨?_, Or.inl rfl, Or.inl rfl, fun n hn => ?_⟩
        · unfold Process.Sound
          rw [show (p.processRequest c rest).phase = .serving from hphase]
          refine ⟨ino, hsock, hinode, hkept.processRequest hqueue, ?_⟩
          rcases haccepting with hon | hgoing | ⟨hoff, hrest⟩
          · exact Or.inl hon
          · exact Or.inr (Or.inl hgoing)
          · exact Or.inr (Or.inr ⟨⟨hoff.1, hoff.2, hoff.3⟩, hrest⟩)
        · cases hphase.symm.trans hn
      next => cases hstep
    next => cases hstep
  | answer c stale =>
    simp only [Process.serveTurn] at hstep
    split at hstep
    next hc =>
      cases hstep
      obtain ⟨hbegun, hphase⟩ := h.busy hc
      have hreplied := h.reply hc
      cases stale
      · exact ⟨hreplied, Or.inl rfl, Or.inl rfl, hphase⟩
      · obtain ⟨hsame, hsock, _⟩ := (p.reply c).beginShutdown_same .handler
        refine ⟨hreplied.beginShutdown nofun hbegun, Or.inl hsock, Or.inl rfl, fun n hn => ?_⟩
        exact hphase n (hsame.symm.trans hn)
    next => cases hstep
  | idle =>
    simp only [Process.serveTurn] at hstep
    split at hstep
    next hserving =>
      cases hstep
      obtain ⟨hsame, hsock, _⟩ := p.beginShutdown_same .loop
      refine ⟨h.beginShutdown nofun (Or.inl hserving.1), Or.inl hsock, Or.inl rfl, fun n hn => ?_⟩
      cases hserving.1.symm.trans (hsame.symm.trans hn)
    next => cases hstep
  | compare =>
    simp only [Process.serveTurn] at hstep
    split at hstep
    next caller hretiring =>
      obtain ⟨ino, hsock, hinode, hkept, hshut, hwhere⟩ := h.retiring hretiring
      split at hstep
      next hown =>
        have hpath : file = some ino := hown.2.trans hinode
        cases hstep
        rcases hwhere with ⟨hphase, hcaller, _, hretired, hrequest⟩ | ⟨_, _, hoff⟩
        · refine ⟨?_, Or.inl rfl, Or.inl rfl, fun n hn => ?_⟩
          · unfold Process.Sound
            dsimp only
            rw [hphase]
            exact ⟨ino, hsock, hinode, hkept,
              Or.inr (Or.inl ⟨hpath, hshut, ⟨_, rfl, hcaller⟩, hretired, hrequest⟩)⟩
          · cases hphase.symm.trans hn
        · exact absurd hpath hoff
      next hother =>
        cases hstep
        have hoff : ∀ n, p.sock = some n → file ≠ some n := by
          intro n hn hpath
          refine hother ⟨by rw [hpath]; rfl, ?_⟩
          rw [hpath, hinode, ← hn, hsock]
        obtain ⟨hsound, hsame, hphase⟩ := h.retireDone hretiring hoff
        exact ⟨hsound, Or.inl hsame, Or.inl rfl, hphase⟩
    next => cases hstep
  | unlink =>
    simp only [Process.serveTurn] at hstep
    split at hstep
    next caller hretiring =>
      cases hstep
      obtain ⟨ino, hsock, _, _, _, ⟨_, _, hpath, _⟩ | ⟨_, hfinal, _⟩⟩ := h.retiring hretiring
      · have hoff : ∀ ino, p.sock = some ino → (none : Option Nat) ≠ some ino := nofun
        obtain ⟨hsound, hsame, hphase⟩ := h.retireDone hretiring hoff
        exact ⟨hsound, Or.inl hsame, Or.inr ⟨rfl, ino, hsock, hpath⟩, hphase⟩
      · cases hfinal
    next => cases hstep
  | leave =>
    simp only [Process.serveTurn] at hstep
    split at hstep
    next hready =>
      cases hstep
      unfold Process.Sound at h
      rw [hready.1] at h
      obtain ⟨ino, hsock, hinode, hkept, hon | hgoing | ⟨hoff, _⟩⟩ := h
      · exact absurd (hon.2.2.2.2.symm.trans hready.2) Bool.false_ne_true
      · exact absurd (hgoing.2.2.2.2.symm.trans hready.2) Bool.false_ne_true
      · refine ⟨?_, Or.inl rfl, Or.inl rfl, nofun⟩
        exact ⟨ino, hsock, hinode, hkept, ⟨hoff.1, hoff.2, hoff.3⟩, rfl⟩
    next => cases hstep
  | drain =>
    simp only [Process.serveTurn] at hstep
    split at hstep
    next c rest hphase hqueue =>
      cases hstep
      unfold Process.Sound at h
      rw [hphase] at h
      obtain ⟨ino, hsock, hkept, hoff, hnone⟩ := h
      refine ⟨?_, Or.inl rfl, Or.inl rfl, fun n hn => ?_⟩
      · unfold Process.Sound
        rw [show (p.processRequest c rest).phase = .draining from hphase]
        exact ⟨ino, hsock, hkept.processRequest hqueue, ⟨hoff.1, hoff.2, hoff.3⟩, hnone⟩
      · cases hphase.symm.trans hn
    next hphase hqueue =>
      cases hstep
      unfold Process.Sound at h
      rw [hphase] at h
      obtain ⟨ino, hsock, hkept, hoff, hnone⟩ := h
      have htaken : p.Taken := by
        intro d hd
        rcases hkept d hd with hwaits | htaken
        · rw [hqueue] at hwaits
          exact absurd hwaits List.not_mem_nil
        · exact htaken
      exact ⟨⟨ino, hsock, htaken, ⟨hoff.1, hoff.2, hoff.3⟩, hnone⟩, Or.inl rfl, Or.inl rfl, nofun⟩
    next => cases hstep
  | close =>
    simp only [Process.serveTurn] at hstep
    split at hstep
    next hphase =>
      cases hstep
      unfold Process.Sound at h
      rw [hphase] at h
      obtain ⟨ino, hsock, htaken, hoff, hnone⟩ := h
      exact ⟨⟨rfl, htaken, hoff.shuttingDown, hnone⟩, Or.inr rfl, Or.inl rfl, nofun⟩
    next => cases hstep
  | join =>
    simp only [Process.serveTurn] at hstep
    split at hstep
    next hready =>
      cases hstep
      unfold Process.Sound at h
      rw [hready.1] at h
      obtain ⟨hsock, htaken, _, hnone⟩ := h
      exact ⟨⟨hsock, htaken, hready.2, hnone⟩, Or.inl rfl, Or.inl rfl, nofun⟩
    next => cases hstep

def Process.clears (p : Process) : Bool :=
  match p.phase with
  | .clearing _ => true
  | _ => false

/-- No process binds while another is between a probe that found nothing alive and its unlink, and
none probes a socket that its owner has still to listen on or whose queue is full. -/
def System.OnTime (s : System) : Act → Prop
  | .binding _ (.bind _) => s.file = none → ∀ q ∈ s.processes, q.clears = false
  | .binding _ .probe => ∀ q ∈ s.processes, q.sock = s.file → q.sock = none ∨ q.hasRoom = true
  | _ => True

instance decidableOnTime (s : System) (act : Act) : Decidable (s.OnTime act) := by
  unfold System.OnTime
  split <;> infer_instance

/-- A bind takes an empty path for a socket no process has. -/
theorem System.Inv.bound (h : s.Inv) (hp : s.processes[i]? = some p) {n ino : Nat}
    (hphase : p.phase = .binding n) (hfile : s.file = none)
    (hfresh : ∀ q ∈ s.processes, q.sock ≠ some ino)
    (hquiet : ∀ q ∈ s.processes, q.clears = false) :
    (s.put i (some ino) { p with phase := .bound n, sock := some ino }).Inv := by
  have hsound := h.sound p (List.mem_of_getElem? hp)
  unfold Process.Sound at hsound
  rw [hphase] at hsound
  obtain ⟨_, hearly, hyoung⟩ := hsound
  refine ⟨fun q hq => ?_, ?_, fun q hq m hm => ?_⟩
  · rcases List.mem_or_eq_of_mem_set hq with hold | rfl
    · refine (h.sound q hold).congr fun m hm => ?_
      refine iff_of_false (by rw [hfile]; nofun) fun hpath => hfresh q hold ?_
      rw [hm, ← show some ino = some m from hpath]
    · exact ⟨ino, rfl, rfl, hearly, ⟨hyoung.1, hyoung.2, hyoung.3, hyoung.4, hyoung.5⟩⟩
  · have hold : ∀ {j : Nat} {q : Process} {m : Nat}, j ≠ i →
        (s.put i (some ino) { p with phase := .bound n, sock := some ino }).processes[j]? = some q →
        q.sock = some m → s.processes[j]? = some q ∧ m ≠ ino := by
      intro j q m hji hj hm
      rw [System.put, List.getElem?_set_ne (Ne.symm hji)] at hj
      exact ⟨hj, fun hmi => hfresh q (List.mem_of_getElem? hj) (hmi ▸ hm)⟩
    have hnew : ∀ {q : Process} {m : Nat},
        (s.put i (some ino) { p with phase := .bound n, sock := some ino }).processes[i]? = some q →
        q.sock = some m → m = ino := by
      intro q m hi hm
      rw [System.put, List.getElem?_set_self (List.getElem?_eq_some_iff.mp hp).1] at hi
      cases hi
      exact (Option.some.inj hm).symm
    intro j k q r m hj hk hq hr
    by_cases hji : j = i <;> by_cases hki : k = i
    · rw [hji, hki]
    · subst hji
      exact absurd (hnew hj hq) (hold hki hk hr).2
    · subst hki
      exact absurd (hnew hk hr) (hold hji hj hq).2
    · exact h.apart j k q r m (hold hji hj hq).1 (hold hki hk hr).1 hq hr
  · rcases List.mem_or_eq_of_mem_set hq with hold | rfl
    · have hclears := hquiet q hold
      rw [Process.clears, hm] at hclears
      cases hclears
    · cases hm

/-- A probe that is answered leaves the path to the daemon that answered. -/
theorem System.Inv.answered (h : s.Inv) (hp : s.processes[i]? = some p) {n j : Nat}
    (hphase : p.phase = .probing n) (hconnect : s.connect j = some s') :
    (s'.put i s'.file { p with phase := .left }).Inv := by
  have hsound := h.sound p (List.mem_of_getElem? hp)
  unfold Process.Sound at hsound
  rw [hphase] at hsound
  obtain ⟨hsock, hearly, hyoung⟩ := hsound
  have hstay : s'.processes[i]? = some p := by
    unfold System.connect at hconnect
    split at hconnect
    · cases hconnect
    next q hq =>
      split at hconnect
      next hroom =>
        cases hconnect
        have hji : j ≠ i := by
          rintro rfl
          cases hq.symm.trans hp
          rw [Process.hasRoom, Process.listening, hphase] at hroom
          cases hroom
        exact (List.getElem?_set_ne hji).trans hp
      next => cases hconnect
  refine (h.connect hconnect).put hstay (Or.inl rfl) ⟨hsock, ?_, hyoung.handling, hyoung.retiring⟩
    (Or.inl rfl) nofun
  intro c hc
  rw [show p.early = [] from hearly] at hc
  exact absurd hc List.not_mem_nil

theorem System.Inv.bindTurn (h : s.Inv) (hp : s.processes[i]? = some p) {turn : BindTurn}
    (hontime : s.OnTime (.binding i turn)) (hstep : s.bindTurn i p turn = some s') : s'.Inv := by
  have hmem := List.mem_of_getElem? hp
  have hsound := h.sound p hmem
  unfold Process.Sound at hsound
  cases turn with
  | bind ino =>
    simp only [System.bindTurn] at hstep
    split at hstep
    next n _ hphase hfile =>
      cases hstep
      rw [hphase] at hsound
      obtain ⟨hsock, hearly, hyoung⟩ := hsound
      refine h.put hp (Or.inl rfl) ⟨hsock, hearly, ?_⟩ (Or.inl rfl) nofun
      exact ⟨hyoung.1, hyoung.2, hyoung.3, hyoung.4, hyoung.5⟩
    next n hphase hfile =>
      split at hstep
      next hfresh =>
        cases hstep
        exact h.bound hp hphase hfile hfresh (hontime hfile)
      next => cases hstep
    next => cases hstep
  | activate =>
    simp only [System.bindTurn] at hstep
    split at hstep
    next n hphase =>
      cases hstep
      rw [hphase] at hsound
      obtain ⟨ino, hsock, hfile, hearly, hyoung⟩ := hsound
      refine h.put hp (Or.inl rfl) ⟨ino, hsock, hfile, fun c hc => ?_, ?_⟩ (Or.inl rfl) nofun
      · rw [show p.early = [] from hearly] at hc
        exact absurd hc List.not_mem_nil
      · exact ⟨hyoung.1, hyoung.2, hyoung.3, hyoung.4, hyoung.5⟩
    next => cases hstep
  | stat =>
    simp only [System.bindTurn] at hstep
    split at hstep
    next n ino hphase hfile =>
      cases hstep
      rw [hphase] at hsound
      obtain ⟨ino', hsock, hpath, hkept, hyoung⟩ := hsound
      cases hfile.symm.trans hpath
      refine h.put hp (Or.inl rfl) ⟨ino, hsock, rfl, hkept, Or.inl ?_⟩ (Or.inl rfl) nofun
      exact ⟨hpath, hyoung.1, hyoung.2, hyoung.3, hyoung.4⟩
    next n hphase hfile =>
      rw [hphase] at hsound
      obtain ⟨ino, _, hpath, _⟩ := hsound
      cases hfile.symm.trans hpath
    next => cases hstep
  | probe =>
    simp only [System.bindTurn] at hstep
    split at hstep
    next n hphase hlistener =>
      cases hstep
      rw [hphase] at hsound
      obtain ⟨hsock, hearly, hyoung⟩ := hsound
      have hdead : ∀ q ∈ s.processes, q.sock = s.file → q.sock = none := by
        intro q hq hpath
        rcases hontime q hq hpath with hnone | hroom
        · exact hnone
        · have hno := List.findIdx?_eq_none_iff.mp hlistener q hq
          rw [hroom, Bool.and_true, decide_eq_true hpath, Bool.and_true] at hno
          rw [hpath]
          exact Option.not_isSome_iff_eq_none.mp (by rw [hno]; exact Bool.false_ne_true)
      refine h.put hp (Or.inl rfl) ⟨hsock, hearly, ?_⟩ (Or.inl rfl) fun _ _ => hdead
      exact ⟨hyoung.1, hyoung.2, hyoung.3, hyoung.4, hyoung.5⟩
    next n j hphase hlistener =>
      obtain ⟨s₁, hconnect, rfl⟩ := Option.map_eq_some_iff.mp hstep
      exact h.answered hp hphase hconnect
    next => cases hstep
  | clear =>
    simp only [System.bindTurn] at hstep
    split at hstep
    next n hphase =>
      cases hstep
      rw [hphase] at hsound
      obtain ⟨hsock, hearly, hyoung⟩ := hsound
      have hdead := h.cleared p hmem n hphase
      refine h.put hp (Or.inl rfl) ?_ (Or.inr ⟨rfl, fun j q _ hj => hdead q (List.mem_of_getElem? hj)⟩)
        fun m hm => ?_
      · split
        · exact ⟨hsock, hearly, ⟨hyoung.1, hyoung.2, hyoung.3, hyoung.4, hyoung.5⟩⟩
        · refine ⟨hsock, fun c hc => ?_, hyoung.handling, hyoung.retiring⟩
          rw [show p.early = [] from hearly] at hc
          exact absurd hc List.not_mem_nil
      · dsimp only at hm
        split at hm <;> cases hm
    next => cases hstep

theorem System.Inv.step (h : s.Inv) {act : Act} (hontime : s.OnTime act)
    (hstep : s.step act = some s') : s'.Inv := by
  cases act with
  | start =>
    cases hstep
    have hold : ∀ {j : Nat} {q : Process} {m : Nat}, (s.processes ++ [({} : Process)])[j]? = some q →
        q.sock = some m → s.processes[j]? = some q := by
      intro j q m hj hm
      rcases Nat.lt_or_ge j s.processes.length with hlt | hge
      · rwa [List.getElem?_append_left hlt] at hj
      · rw [List.getElem?_append_right hge] at hj
        cases List.mem_singleton.mp (List.mem_of_getElem? hj)
        cases hm
    refine ⟨fun q hq => ?_, fun j k q r m hj hk hq hr => ?_, fun q hq n hn r hr hpath => ?_⟩
    · rcases List.mem_append.mp hq with hq | hq
      · exact h.sound q hq
      · cases List.mem_singleton.mp hq
        exact ⟨rfl, rfl, ⟨rfl, rfl, rfl, rfl, rfl⟩⟩
    · exact h.apart j k q r m (hold hj hq) (hold hk hr) hq hr
    · rcases List.mem_append.mp hr with hr | hr
      · rcases List.mem_append.mp hq with hq | hq
        · exact h.cleared q hq n hn r hr hpath
        · cases List.mem_singleton.mp hq
          cases hn
      · cases List.mem_singleton.mp hr
        rfl
  | connect i => exact h.connect hstep
  | binding i turn =>
    simp only [System.step] at hstep
    split at hstep
    next => cases hstep
    next p hp => exact h.bindTurn hp hontime hstep
  | serving i turn =>
    simp only [System.step] at hstep
    split at hstep
    next => cases hstep
    next p hp =>
      obtain ⟨⟨file', p'⟩, hturn, rfl⟩ := Option.map_eq_some_iff.mp hstep
      have hturned := (h.sound p (List.mem_of_getElem? hp)).serveTurn hturn
      refine h.put hp hturned.sock hturned.sound ?_ fun n hn => absurd hn (hturned.phase n)
      rcases hturned.file with hsame | ⟨hnone, ino, hsock, hpath⟩
      · exact Or.inl hsame
      · refine Or.inr ⟨hnone, fun j q hji hj hown => ?_⟩
        exact absurd (h.apart j i q p ino hj hp (hown.trans hpath) hsock) hji

/-- Daemons on the air have their own sockets at the path, so there is one at most, and those that
have left answered what was connected before they retired. -/
structure System.Reachable (s : System) : Prop where
  own : ∀ p ∈ s.processes, p.listening = true → p.retired = false →
    ∃ ino, p.sock = some ino ∧ s.file = some ino
  sole : ∀ (i j : Nat) (p q : Process), s.processes[i]? = some p → s.processes[j]? = some q →
    p.listening = true → p.retired = false → q.listening = true → q.retired = false → i = j
  answered : ∀ p ∈ s.processes, p.phase = .left → ∀ c ∈ p.early, c ∈ p.served

theorem Process.Sound.own (h : p.Sound file) (hlistening : p.listening = true)
    (hretired : p.retired = false) : ∃ ino, p.sock = some ino ∧ file = some ino := by
  unfold Process.listening at hlistening
  unfold Process.Sound at h
  cases hphase : p.phase <;> rw [hphase] at h hlistening <;> dsimp only at h hlistening
  case binding | bound | probing | clearing | joining | left => cases hlistening
  case listened =>
    obtain ⟨ino, hsock, hpath, _⟩ := h
    exact ⟨ino, hsock, hpath⟩
  case serving =>
    obtain ⟨ino, hsock, _, _, ⟨hpath, _⟩ | ⟨hpath, _⟩ | ⟨hoff, _⟩⟩ := h
    · exact ⟨ino, hsock, hpath⟩
    · exact ⟨ino, hsock, hpath⟩
    · exact absurd (hoff.retired.symm.trans hretired) nofun
  case ending =>
    obtain ⟨_, _, _, _, hoff, _⟩ := h
    exact absurd (hoff.retired.symm.trans hretired) nofun
  case draining | closing =>
    obtain ⟨_, _, _, hoff, _⟩ := h
    exact absurd (hoff.retired.symm.trans hretired) nofun

/-- Where no bind comes between a starter's probe and its unlink and every probe of an open socket
is answered, a daemon stays reachable and answers what it took, over any leftover file. -/
theorem daemon_reachable {leftover : Option Nat} {trace : List Act}
    (hontime : Trace.Along System.step System.OnTime { file := leftover } trace)
    (hrun : Trace.run System.step { file := leftover } trace = some s) : s.Reachable := by
  have hstart : System.Inv { file := leftover } :=
    ⟨List.forall_mem_nil _, fun _ _ _ _ _ hj => absurd hj nofun, List.forall_mem_nil _⟩
  have hend := Trace.run_keeps_along (I := fun _ s => s.Inv) hstart
    (fun h hallowed hstep => h.step hallowed hstep) hontime hrun
  refine ⟨fun p hp hon hnot => (hend.sound p hp).own hon hnot, ?_, fun p hp hleft c hc => ?_⟩
  · intro i j p q hi hj hon hnot hon' hnot'
    obtain ⟨ino, hsock, hpath⟩ := (hend.sound p (List.mem_of_getElem? hi)).own hon hnot
    obtain ⟨ino', hsock', hpath'⟩ := (hend.sound q (List.mem_of_getElem? hj)).own hon' hnot'
    cases hpath.symm.trans hpath'
    exact hend.apart i j p q ino hi hj hsock hsock'
  · have hsound := hend.sound p hp
    unfold Process.Sound at hsound
    rw [hleft] at hsound
    rcases hsound.2.1 c hc with hhandled | hserved
    · rw [hsound.2.2.1] at hhandled
      exact absurd hhandled List.not_mem_nil
    · exact hserved

/-- A starter clears a dead file and serves, another finds it alive, and a request for another
version ends it. -/
def servingRun : List Act :=
  [.start, .binding 0 (.bind 1), .binding 0 .probe, .binding 0 .clear, .binding 0 (.bind 1),
    .binding 0 .activate, .binding 0 .stat, .connect 0, .start, .binding 1 (.bind 2),
    .binding 1 .probe, .serving 0 .accept, .serving 0 (.answer 0 true), .serving 0 .compare,
    .serving 0 .unlink, .serving 0 .leave, .serving 0 .compare, .serving 0 .drain,
    .serving 0 .drain, .serving 0 .close, .serving 0 (.answer 1 false), .serving 0 .join]

theorem daemon_reachable_once :
    ∃ s, Trace.run System.step { file := some 0 } servingRun = some s ∧
      s.processes.map Process.phase = [.left, .left] ∧
      s.processes.map Process.early = [[0, 1], []] ∧ s.Reachable := by
  have hend : (Trace.run System.step { file := some 0 } servingRun).any
      (fun s => decide (s.processes.map Process.phase = [.left, .left] ∧
        s.processes.map Process.early = [[0, 1], []])) = true := by decide +kernel
  obtain ⟨s, hrun, hfound⟩ := (Option.any_eq_true _ _).mp hend
  obtain ⟨hphases, hearly⟩ := of_decide_eq_true hfound
  have hontime : Trace.Along System.step System.OnTime { file := some 0 } servingRun := by
    decide +kernel
  exact ⟨s, hrun, hphases, hearly, daemon_reachable hontime hrun⟩

/-- Two starters find the same file dead; the second unlinks the socket the first has bound. -/
def unlinkedRun : List Act :=
  [.start, .start, .binding 0 (.bind 1), .binding 1 (.bind 1), .binding 0 .probe,
    .binding 1 .probe, .binding 0 .clear, .binding 0 (.bind 1), .binding 0 .activate,
    .binding 0 .stat, .binding 1 .clear, .binding 1 (.bind 2), .binding 1 .activate,
    .binding 1 .stat]

theorem daemon_unlinked :
    ∃ s, Trace.run System.step { file := some 0 } unlinkedRun = some s ∧ ¬ s.Reachable := by
  have hend : (Trace.run System.step { file := some 0 } unlinkedRun).any
      (fun s => s.processes.any fun p =>
        p.listening && decide (p.retired = false ∧ p.sock ≠ s.file)) = true := by decide +kernel
  obtain ⟨s, hrun, hfound⟩ := (Option.any_eq_true _ _).mp hend
  obtain ⟨p, hp, hunseen⟩ := List.any_eq_true.mp hfound
  obtain ⟨hon, hnot⟩ := Bool.and_eq_true_iff.mp hunseen
  obtain ⟨hretired, hother⟩ := of_decide_eq_true hnot
  refine ⟨s, hrun, fun hreach => ?_⟩
  obtain ⟨ino, hsock, hpath⟩ := hreach.own p hp hon hretired
  exact hother (hsock.trans hpath.symm)

end Trackinizer.Daemons
