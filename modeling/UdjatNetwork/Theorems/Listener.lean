import UdjatNetwork.Theorems.Passes

/-! # The listener of the ICMP controller

While hosts are pending the socket is open and the timer and the input handler are enabled. Only `start`
and `stop` touch these three, and `start` takes a socket with descriptor 0 for one that is not open: it
then creates another one, and a failure of that stops the listener of the pending hosts. -/

namespace UdjatNetwork.Icmp
open Pass Machine Controller

variable {s t : Controller}

/-- What a pending host needs: an open socket, the timer and the input handler. -/
def Controller.Listening (s : Controller) : Prop :=
  s.hosts ≠ [] → 0 ≤ s.fd ∧ s.timer = true ∧ s.handler = true

/-- The step does not create a socket, in vain, in the place of descriptor 0 while hosts are pending. -/
def Controller.KeepsSocket (s : Controller) : Input → Prop
  | .insert w env => s.world.busy w = true ∨ s.hosts = [] ∨ s.fd ≠ 0 ∨ env.start.opens = true
  | _ => True

/-! ### What a call does to the listener -/

def Controller.channel (s : Controller) : Int × Bool × Bool := (s.fd, s.timer, s.handler)

theorem Controller.Listening.of_channel (h : s.Listening) (hc : t.channel = s.channel)
    (hh : t.hosts ≠ [] → s.hosts ≠ []) : t.Listening := fun ht => by
  obtain ⟨hfd, htimer, hhandler⟩ := h (hh ht)
  simp only [Controller.channel, Prod.mk.injEq] at hc
  obtain ⟨h1, h2, h3⟩ := hc
  rw [h1, h2, h3]
  exact ⟨hfd, htimer, hhandler⟩

theorem send_channel (node : Nat) (addr : Address) (payload : Payload) (env : SendEnv) :
    (s.send node addr payload env).channel = s.channel := by
  rcases send_cases s node addr payload env with hsend | ⟨-, hsend⟩ | ⟨code, w, -, -, hsend⟩ <;> rw [hsend] <;> rfl

theorem hostSend_channel (h : Host) (env : SendEnv) : (s.hostSend h env).1.channel = s.channel :=
  send_channel (s := s.store _) _ _ _ env

theorem timerPred_channel {env : Nat → TimerEnv} {n : Nat} {v : Verdict} (hp : timerPred env n s = (t, v)) :
    t.channel = s.channel := by
  rcases timerPred_cases hp with ⟨-, rfl⟩ | ⟨h, -, -, ⟨-, rfl⟩ | ⟨-, -, rfl⟩ | ⟨-, rfl⟩⟩
  · rfl
  · rfl
  · rfl
  · exact hostSend_channel h _

/-- The timer pass keeps the listener, and adds no host to an empty list. -/
theorem timerPass_keeps (env : Nat → TimerEnv)
    (ht : (removeIf nodeList unlink (timerPred env) s.nodeList s).state? = some t) :
    t.channel = s.channel ∧ (t.hosts ≠ [] → s.hosts ≠ []) := by
  refine ⟨?_, fun hne he => hne ?_⟩
  · refine removeIf_induct (I := fun u => u.channel = s.channel) ?_ ?_ ?_ rfl ht <;> intro k u v hI _ hp
    · exact (timerPred_channel hp).trans hI
    · exact (timerPred_channel hp).trans hI
    · exact (timerPred_channel hp).trans hI
  · rw [show s.nodeList = [] by simp [nodeList, he]] at ht
    cases ht
    exact he

theorem stopIfEmpty_listening (h : s.Listening) : s.stopIfEmpty.Listening := by
  unfold stopIfEmpty
  split
  · rename_i he
    exact fun hne => absurd (List.isEmpty_iff.mp he) hne
  · exact h

theorem emplaceBack_channel (w : WorkerId) (env : InsertEnv) : (s.emplaceBack w env).channel = s.channel :=
  hostSend_channel _ env.send

theorem start_ok {env : StartEnv} (hs : s.start env = .ok t) : 0 ≤ t.fd ∧ t.timer = true ∧ t.handler = true := by
  unfold Controller.start at hs
  split at hs <;> cases hs
  rename_i u hu
  refine ⟨?_, rfl, rfl⟩
  unfold openSocket at hu
  split_ifs at hu with hfd
  · split at hu
    · cases hu
    · cases hu
    · rw [← (Prod.mk.inj hu).1]
      exact Int.natCast_nonneg _
  · cases hu
    exact Int.le_of_lt (Int.not_le.mp hfd)

/-- `start` throws when it has no open socket and does not get one; it then stops the listener. -/
theorem start_threw {env : StartEnv} (hs : s.start env = .threw t) :
    s.fd ≤ 0 ∧ env.opens = false ∧ t.fd = -1 := by
  unfold Controller.start at hs
  split at hs <;> cases hs
  rename_i u hu
  unfold openSocket at hu
  split_ifs at hu with hfd
  · refine ⟨hfd, ?_, rfl⟩
    unfold StartEnv.opens
    split at hu
    · rename_i hp
      simp [hp]
    · rename_i hk
      simp [hk]
    · rename_i hp hk
      simpa [hp, hk] using (Prod.mk.inj hu).2
  · cases hu

theorem start_of_opens {env : StartEnv} (ho : env.opens = false) (hfd : s.fd ≤ 0) :
    ∃ t, s.start env = .threw t := by
  unfold StartEnv.opens at ho
  unfold Controller.start openSocket
  simp only [hfd, if_true]
  cases hp : env.proto <;> cases hk : env.socket <;> simp_all
  split <;> simp_all

/-! ### Steps -/

theorem insert_listening {w : WorkerId} {env : InsertEnv} (h : s.Listening)
    (hk : s.KeepsSocket (.insert w env)) (ht : (s.insert w env).state? = some t) : t.Listening := by
  rcases insert_cases s w env with ⟨u, hu, hv, -⟩ | ⟨u, hu, -, s₁, hs₁, rfl⟩ <;>
    rw [hu] at ht <;> cases ht
  · have hhosts : t.hosts = s.hosts := congrArg View.hosts hv
    unfold Controller.insert at hu
    split at hu
    · cases hu
      exact h
    · rename_i hb
      split at hu
      · cases hu
      · rename_i o hno
        obtain ⟨hfd, hop, -⟩ := start_threw hu
        intro hne
        rw [hhosts] at hne
        -- A pending host has an open socket, so `start` failed on descriptor 0.
        rcases hk with hbusy | hnil | hfd0 | hopens
        · exact absurd hbusy hb
        · exact absurd hnil hne
        · exact absurd (Int.le_antisymm hfd (h hne).1) hfd0
        · rw [hop] at hopens
          cases hopens
  · intro _
    have hc := emplaceBack_channel (s := { s₁ with world := s₁.world.setBusy w true }) w env
    obtain ⟨h1, h2, h3⟩ := start_ok hs₁
    simp only [Controller.channel, Prod.mk.injEq] at hc
    rw [hc.1, hc.2.1, hc.2.2]
    exact ⟨h1, h2, h3⟩

theorem step_listening {i : Input} (h : s.Listening) (hk : s.KeepsSocket i) (ht : s.step i = some t) :
    t.Listening := by
  cases i with
  | insert w env => exact insert_listening h hk ht
  | remove w =>
    cases ht
    refine stopIfEmpty_listening (h.of_channel rfl fun hne he => hne ?_)
    change (sweep (removePred w) s.hosts s.world).1 = []
    rw [he]
    rfl
  | onTimer =>
    cases ht
    split
    · exact h.of_channel rfl id
    · exact h
  | task env =>
    change (if s.queued = 0 then some s else _) = some t at ht
    split at ht
    · cases ht
      exact h
    · have h' : ({ s with queued := s.queued - 1 } : Controller).Listening := h
      unfold Controller.timerTask at ht
      split at ht
      · rename_i u hu
        cases ht
        obtain ⟨hc, hh⟩ := timerPass_keeps env (t := u) (by rw [hu]; rfl)
        exact stopIfEmpty_listening (h'.of_channel hc hh)
      · obtain ⟨hc, hh⟩ := timerPass_keeps env ht
        exact h'.of_channel hc hh
  | handleEvent oninput recv now =>
    cases ht
    unfold Controller.handleEvent
    split
    · split
      · exact h
      · rename_i packet addr _
        refine h.of_channel rfl fun hne he => hne ?_
        change (sweep (responsePred packet addr now) s.hosts s.world).1 = []
        rw [he]
        rfl
    · exact h
  | address w addr =>
    cases ht
    exact h.of_channel rfl id

theorem always_listening_iff (pid : Nat) (workers : WorkerId → Worker) (is : List Input) :
    Always step Listening (init pid workers) is ↔ Along step KeepsSocket (init pid workers) is := by
  constructor
  · refine along_of_always (J := fun _ => True) (fun _ _ _ _ _ _ _ => trivial) (fun s i _ _ hnext => ?_) trivial
    cases i with
    | insert w env =>
      by_contra hk
      simp only [Controller.KeepsSocket, not_or, Bool.not_eq_true] at hk
      obtain ⟨hb, hne, hfd, ho⟩ := hk
      obtain ⟨t, ht⟩ := start_of_opens (s := s) ho (Int.le_of_eq (not_not.mp hfd))
      have hi : s.insert w env = .threw t := by simp [Controller.insert, hb, ht]
      have hv : t.view = s.view := start_view (by rw [ht]; rfl)
      have hlisten : t.Listening := hnext t (by simp [Controller.step, hi])
      have := (hlisten (by rw [show t.hosts = s.hosts from congrArg View.hosts hv]; exact hne)).1
      rw [(start_threw ht).2.2] at this
      exact absurd this (by decide)
    | _ => trivial
  · exact always_of_along (fun s i t h hk ht => step_listening h hk ht) (fun h => absurd rfl h)

/-- All along a run every step is defined and the listener is on while hosts are pending, also after an insertion that
    throws, if and only if no insertion fails to replace a socket with descriptor 0 while hosts are pending, and no
    callback of the timer visits a host whose packet fails and completes the host that the callback goes on to. --/
theorem listening_iff (pid : Nat) (workers : WorkerId → Worker) (is : List Input) :
    (Always step Listening (init pid workers) is ∧ Along step Defined (init pid workers) is) ↔
      Along step (fun s i => s.KeepsSocket i ∧ s.KeepsNext i) (init pid workers) is := by
  rw [along_and, always_listening_iff, along_defined_iff]

/-- A first insertion gets descriptor 0, and the socket of the second one is refused: the host of the first
    stays in the list without a listener. --/
theorem not_listening_descriptor_zero :
    ¬ ∀ (pid : Nat) (workers : WorkerId → Worker) (is : List Input),
      Always step Listening (init pid workers) is := by
  intro h
  have hrun : (exec step (init 1 fun _ => { addr := .inet 0x0100007F })
      [.insert 0 { start := { socket := some 0 } }, .insert 1 { start := { socket := none } }]).map
        (fun s => (s.hosts.length, s.fd)) = some (1, -1) := by decide
  obtain ⟨s, hs, he⟩ := Option.map_eq_some_iff.mp hrun
  have hl : s.Listening := (h _ _ _).of_exec hs
  obtain ⟨hlen, hfd⟩ := Prod.mk.inj he
  have hne : s.hosts ≠ [] := fun hnil => by simp [hnil] at hlen
  have := (hl hne).1
  omega

end UdjatNetwork.Icmp
