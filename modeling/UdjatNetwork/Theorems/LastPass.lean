import UdjatNetwork.Theorems.Busy
import UdjatNetwork.Theorems.TimerPass

/-! # A pass after the last deadline

When every deadline is over and no worker throws, one callback of the timer ends all checks, however identifiers are
shared: hosts that time out send nothing, so no send error of one concerns another. -/

namespace UdjatNetwork.Icmp
open Pass Machine Controller

variable {s t : Controller} {h : Host} {env : Nat → TimerEnv} {done rest : List Host}

/-- The deadlines of the hosts are over, and their workers take the timeout without an exception. -/
def Over (env : Nat → TimerEnv) (hosts : List Host) : Prop :=
  ∀ h ∈ hosts, h.Expired env ∧ (env h.node).send.throws h.node = false

/-- Every host times out, in the order of the list. -/
def World.timedOut (hosts : List Host) (w : World) : World :=
  hosts.foldl (fun w h => (w.set h .timeout .empty).setBusy h.worker false) w

/-- The event of a host that times out. -/
def Host.timedOut (h : Host) : Event := .set h.node h.worker .timeout .empty

theorem log_timedOut (hosts : List Host) (w : World) : (w.timedOut hosts).log = w.log ++ hosts.map Host.timedOut := by
  induction hosts generalizing w with
  | nil => exact (List.append_nil _).symm
  | cons h hosts ih =>
    have ih' := ih ((w.set h .timeout .empty).setBusy h.worker false)
    rw [World.log_setBusy, World.log_set, List.append_assoc] at ih'
    exact ih'

theorem sent_timedOut (hosts : List Host) (w : World) : (w.timedOut hosts).sent = w.sent := by
  induction hosts generalizing w with
  | nil => rfl
  | cons h hosts ih => exact ih ((w.set h .timeout .empty).setBusy h.worker false)

theorem busy_timedOut (hosts : List Host) (w : World) (v : WorkerId) :
    (w.timedOut hosts).busy v = true ↔ w.busy v = true ∧ v ∉ hosts.map (·.worker) := by
  induction hosts generalizing w with
  | nil => simp [World.timedOut]
  | cons h hosts ih =>
    have ih' := ih ((w.set h .timeout .empty).setBusy h.worker false)
    rw [World.busy_setBusy, World.busy_set] at ih'
    rw [List.map_cons, List.mem_cons, not_or]
    refine ih'.trans ?_
    split_ifs with hv
    · simp [hv]
    · simp [hv]

/-- The visits of a pass over hosts that are all over their deadlines. -/
theorem visits_over (hosts : List Host) (hover : Over env hosts) (s : Controller) :
    (visits (visit env) hosts s).1 = [] ∧ (visits (visit env) hosts s).2.2 = false ∧
      (visits (visit env) hosts s).2.1.withHosts [] = { s with hosts := [], world := s.world.timedOut hosts } := by
  induction hosts generalizing s with
  | nil => exact ⟨rfl, rfl, rfl⟩
  | cons h hosts ih =>
    obtain ⟨hexpired, hthrows⟩ := hover h List.mem_cons_self
    have hvisit : visit env h s =
        ({ s with world := (s.world.set h .timeout .empty).setBusy h.worker false }.withHosts [h], .drop) := by
      rcases visit_cases env h s with ⟨-, -, ht⟩ | ⟨-, -, hvisit⟩ | ⟨hnow, -⟩ | ⟨hnow, -⟩
      · rw [hthrows] at ht
        cases ht
      · exact hvisit
      · exact absurd hexpired (not_lt.mpr hnow)
      · exact absurd hexpired (not_lt.mpr hnow)
    rw [visits, hvisit]
    exact ih (fun x hx => hover x (List.mem_cons_of_mem h hx)) _

theorem Over.drop (ho : Over env (done ++ h :: rest)) : Over env (done ++ rest) := fun x hx => ho x <| by
  rcases List.mem_append.mp hx with hx | hx
  · exact List.mem_append_left _ hx
  · exact List.mem_append_right _ (List.mem_cons_of_mem _ hx)

theorem Over.keep {b : Host} (ho : Over env (done ++ h :: rest)) (hn : b.node = h.node) (hb : b.timeout = h.timeout) :
    Over env (done ++ b :: rest) := by
  intro x hx
  rcases List.mem_append.mp hx with hx | hx
  · exact ho x (List.mem_append_left _ hx)
  · rcases List.mem_cons.mp hx with rfl | hx
    · rw [Host.Expired, hn, hb]
      exact ho h (List.mem_append_right _ List.mem_cons_self)
    · exact ho x (List.mem_append_right _ (List.mem_cons_of_mem _ hx))

theorem timerTask_over (hn : (s.hosts.map Host.node).Nodup) (hover : Over env s.hosts) :
    s.timerTask env = .ok { s with hosts := [], world := s.world.timedOut s.hosts }.stop := by
  have hpass : removeIf nodeList unlink (timerPred env) s.nodeList s = _ :=
    removeIf_eq_visits Host.node withHosts (visit env) (Q := fun hosts => (hosts.map Host.node).Nodup ∧ Over env hosts)
      (fun _ _ => rfl)
      (fun done h rest w w' b hq hf => by
        rcases visit_keep (congrArg Prod.snd hf) with rfl | rfl
        · exact hq
        · exact ⟨by simpa [Host.counted] using hq.1, hq.2.keep rfl rfl⟩)
      (fun done h rest hq => ⟨(nodup_map_middle hq.1).1, hq.2.drop⟩)
      (fun done h rest w hq => visit_local hq.1 fun hu => absurd (hq.2 h (by simp)).1 (not_lt.mpr hu.1.1.1))
      [] s.hosts s ⟨hn, hover⟩
  obtain ⟨hnone, hraised, hstate⟩ := visits_over s.hosts hover s
  rw [List.nil_append, hraised, hnone, hstate] at hpass
  unfold Controller.timerTask
  rw [hpass]
  rfl

/-- A callback that was pushed, when all deadlines are over. -/
theorem task_over (hs : Numbered s.view) (hflags : Flags s.view) (hq : s.queued ≠ 0) (hover : Over env s.hosts) :
    ∃ t, s.step (.task env) = some t ∧ t.hosts = [] ∧ (∀ w, t.world.busy w = false) ∧
      (t.fd = -1 ∧ t.timer = false ∧ t.handler = false) ∧
      t.world.log = s.world.log ++ s.hosts.map Host.timedOut ∧ t.world.sent = s.world.sent := by
  have htask : ({ s with queued := s.queued - 1 } : Controller).timerTask env = _ := timerTask_over hs.nodup hover
  refine ⟨{ s with queued := s.queued - 1, hosts := [], world := s.world.timedOut s.hosts }.stop, ?_, rfl, fun w => ?_,
    ⟨rfl, rfl, rfl⟩, log_timedOut _ _, sent_timedOut _ _⟩
  · have hstep : s.step (.task env) = _ := if_neg hq
    rw [hstep, htask]
    rfl
  · rw [Bool.eq_false_iff]
    intro hbusy
    obtain ⟨hb, hnot⟩ := (busy_timedOut s.hosts s.world w).mp hbusy
    exact hnot ((hflags.busy w).mp hb)

/-- In every state that a run reaches, a callback of the timer that comes after all deadlines, and whose workers do not
    throw, tells each host of the list its timeout, in the order of the list, and sends nothing; no host is left then, no
    worker is busy, and the listener is stopped. --/
theorem all_time_out (pid : Nat) (workers : WorkerId → Worker) (is : List Input) (s : Controller) (env : Nat → TimerEnv)
    (hs : exec step (init pid workers) is = some s) (hq : s.queued ≠ 0) (hover : Over env s.hosts) :
    ∃ t, s.step (.task env) = some t ∧ t.hosts = [] ∧ (∀ w, t.world.busy w = false) ∧
      (t.fd = -1 ∧ t.timer = false ∧ t.handler = false) ∧
      t.world.log = s.world.log ++ s.hosts.map Host.timedOut ∧ t.world.sent = s.world.sent := by
  have hsound : Sound s := (always_sound pid workers is).of_exec hs
  exact task_over hsound.numbered hsound.flags hq hover

/-- The result at two checks, one of a worker without an address. --/
theorem all_time_out_two :
    let i : InsertEnv := { start := { socket := some 7 }, time := 10, send := { time := 10 } }
    ∃ s, exec step (init 1 fun w => { addr := if w = 0 then .inet 1 else .empty }) [.insert 0 i, .insert 1 i, .onTimer] =
        some s ∧
      ∃ t, s.step (.task fun _ => { now := 12 }) = some t ∧ t.hosts = [] ∧ (∀ w, t.world.busy w = false) ∧
        (t.fd = -1 ∧ t.timer = false ∧ t.handler = false) ∧
        t.world.log = s.world.log ++ s.hosts.map Host.timedOut ∧ t.world.sent = s.world.sent := by
  intro i
  obtain ⟨s, hs, hover⟩ : ∃ s, exec step (init 1 fun w => { addr := if w = 0 then .inet 1 else .empty })
      [.insert 0 i, .insert 1 i, .onTimer] = some s ∧ s.queued ≠ 0 ∧ Over (fun _ => { now := 12 }) s.hosts :=
    ⟨_, rfl, by decide, by simp [Over, Host.Expired]; decide⟩
  exact ⟨s, hs, all_time_out 1 _ _ s _ hs hover.1 hover.2⟩

end UdjatNetwork.Icmp
