import UdjatNetwork.Theorems.Identifiers

/-! # One host for each busy worker -/

namespace UdjatNetwork.Icmp
open Pass Machine Controller

variable {s t : Controller}

/-- The number of hosts that a worker has in the list. -/
def Controller.hostsOf (s : Controller) (w : WorkerId) : Nat := s.hosts.countP (·.worker = w)

/-- No worker has two hosts, and a worker is busy when it has one. -/
def Controller.OneHost (s : Controller) : Prop :=
  ∀ w, s.hostsOf w ≤ 1 ∧ (s.world.busy w = true ↔ s.hostsOf w = 1)

/-- An insertion that throws leaves the list and the flags as they were. -/
def Controller.InsertKeeps (s : Controller) : Prop :=
  ∀ w env t, s.insert w env = .threw t → t.hosts = s.hosts ∧ ∀ v, t.world.busy v = s.world.busy v

theorem hostsOf_eq_count (w : WorkerId) : s.hostsOf w = (s.hosts.map (·.worker)).count w := by
  unfold Controller.hostsOf
  rw [List.count_eq_countP, List.countP_map]
  exact List.countP_congr fun h _ => by simp

theorem oneHost_of_flags (hs : Flags s.view) : s.OneHost := by
  intro w
  have hle : (s.hosts.map (·.worker)).count w ≤ 1 := List.nodup_iff_count_le_one.mp hs.nodup w
  have hbusy : s.world.busy w = true ↔ w ∈ s.hosts.map (·.worker) := hs.busy w
  rw [hostsOf_eq_count, hbusy, ← List.count_pos_iff]
  omega

theorem insertKeeps : s.InsertKeeps := by
  intro w env t ht
  rcases insert_cases s w env with ⟨u, hu, hv, -⟩ | ⟨u, hu, -⟩ <;> rw [hu] at ht <;> cases ht
  have hworld : t.world = s.world := congrArg View.world hv
  exact ⟨congrArg View.hosts hv, fun v => by rw [hworld]⟩

theorem flags_init (pid : Nat) (workers : WorkerId → Worker) : Flags (init pid workers).view :=
  ⟨List.nodup_nil, fun w => by simp [Controller.view, init, World.busy]⟩

/-- What every state of a run keeps of nodes and flags. -/
structure Sound (s : Controller) : Prop where
  numbered : Numbered s.view
  flags : Flags s.view

theorem sound_init (pid : Nat) (workers : WorkerId → Worker) : Sound (init pid workers) :=
  ⟨numbered_init pid workers, flags_init pid workers⟩

theorem step_sound {i : Input} (hs : Sound s) (ht : s.step i = some t) : Sound t :=
  ⟨step_numbered hs.numbered ht, hs.flags.moves (step_moves hs.numbered ht)⟩

theorem always_sound (pid : Nat) (workers : WorkerId → Worker) (is : List Input) :
    Always step Sound (init pid workers) is :=
  always_of_step (fun _ _ _ hs ht => step_sound hs ht) (sound_init pid workers) is

theorem always_oneHost (pid : Nat) (workers : WorkerId → Worker) (is : List Input) :
    Always step (fun s => s.OneHost ∧ s.InsertKeeps) (init pid workers) is :=
  (always_sound pid workers is).mono fun _ hs => ⟨oneHost_of_flags hs.flags, insertKeeps⟩

/-- In every state of a run, each worker has at most one host in the list and is busy exactly when it has one, an
    insertion that throws changes neither, and every step is defined, if and only if no callback of the timer visits a
    host whose packet fails and completes the host that the callback goes on to. --/
theorem busy_iff_one_host (pid : Nat) (workers : WorkerId → Worker) (is : List Input) :
    (Always step (fun s => s.OneHost ∧ s.InsertKeeps) (init pid workers) is ∧ Along step Defined (init pid workers) is) ↔
      Along step KeepsNext (init pid workers) is :=
  (and_iff_right (always_oneHost pid workers is)).trans (along_defined_iff pid workers is)

/-- The host of worker 0 waits with the identifier of the one behind it, and its packet finds no network. --/
theorem goes_on_from_gone :
    ¬ ∀ (pid : Nat) (workers : WorkerId → Worker) (is : List Input),
      Always step (fun s => s.OneHost ∧ s.InsertKeeps) (init pid workers) is ∧
        Along step Defined (init pid workers) is := by
  intro h
  obtain ⟨is, t, x, hreached, hn, hhosts, hnode, hid, hfd, htimer, haddr⟩ := waiting_pair
  let env : Nat → TimerEnv := fun _ => { now := 1, send := { errno := some ENETUNREACH } }
  let u : Controller := { t with queued := t.queued + 1 }
  have hticked : t.step .onTimer = some u := congrArg some (if_pos htimer)
  have hrun : exec step (init 1 fun _ => { addr := .inet 0x0100007F }) (is ++ [.onTimer]) = some u := by
    rw [exec_append, hreached, Option.bind_some, exec, hticked]
    rfl
  have hdefined : u.Defined (.task env) := by
    have hlast := (h 1 (fun _ => { addr := .inet 0x0100007F }) (is ++ [.onTimer] ++ [.task env])).2
    exact (hlast.of_exec_append hrun).1
  have hn : Numbered u.view := hn
  have honward : u.Onward env [] [waitingHost, x] := by
    have hnext : u.KeepsNext (.task env) := (defined_iff hn (.task env)).mp hdefined
    exact hhosts ▸ hnext (Nat.succ_ne_zero t.queued)
  have hfail : u.Unreachable env waitingHost := ⟨⟨⟨by decide, by decide⟩, by simp [u, hfd], _, haddr 0⟩, rfl⟩
  rw [Controller.Onward, if_neg (not_expired hfail), if_pos hfail] at honward
  refine honward.1 x rfl ?_
  simp [completed, waitingHost, env, hid]

end UdjatNetwork.Icmp
