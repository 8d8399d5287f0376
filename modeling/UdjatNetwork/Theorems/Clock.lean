import UdjatNetwork.Theorems.ControllerMoves

/-! # The clock of the packets

`getCurrentTime` adds nanoseconds to seconds that it turned into microseconds, and `worker.time` is the difference of
two such numbers, whichever is greater. -/

namespace UdjatNetwork.Icmp
open Controller

/-- The reading, cut to a microsecond. -/
def micros (tm : Timespec) : Nat := tm.sec * 1000000 + tm.nsec / 1000

/-- The first reading is not after the second one. -/
def Before (r r' : Timespec) : Prop := r.sec < r'.sec ∨ r.sec = r'.sec ∧ r.nsec ≤ r'.nsec

/-- A probe goes out at one reading, its reply comes back at the other: the worker has the microseconds between. -/
def Measures (r r' : Timespec) : Prop :=
  ∀ (s : Controller) (h : Host) (env : SendEnv) (probe : Sent), env.clock = r →
    (s.hostSend h env).1.world.sent = s.world.sent ++ [probe] → ∀ (addr : Address) (w : World),
      (((s.hostSend h env).2.onResponse ICMP_ECHOREPLY addr probe.payload r' w).1.workers h.worker).time.toNat =
        micros r' - micros r

theorem getCurrentTime_toNat (tm : Timespec) :
    (getCurrentTime tm).toNat = (tm.sec * 1000000 + tm.nsec) % 2 ^ 64 := by
  have hmillion : (1000000 : UInt64).toNat = 1000000 := rfl
  simp only [getCurrentTime, UInt64.toNat_add, UInt64.toNat_mul, UInt64.toNat_ofNat', hmillion]
  omega

/-- What `onResponse` makes of the stamp `a` at the time `b`. -/
def elapsed (a b : UInt64) : UInt64 := if a ≥ b then a - b else b - a

theorem elapsed_iff (a b : UInt64) (n : Nat) :
    (elapsed a b).toNat = n ∧ a ≤ b ↔ a.toNat + n = b.toNat := by
  unfold elapsed
  rw [UInt64.le_iff_toNat_le]
  have hb := b.toNat_lt
  split
  · rename_i hle
    rw [ge_iff_le, UInt64.le_iff_toNat_le] at hle
    rw [UInt64.toNat_sub_of_le _ _ (UInt64.le_iff_toNat_le.mpr hle)]
    omega
  · rename_i hlt
    rw [ge_iff_le, UInt64.le_iff_toNat_le] at hlt
    rw [UInt64.toNat_sub_of_le _ _ (UInt64.le_iff_toNat_le.mpr (by omega))]
    omega

theorem onResponse_time (h : Host) (addr : Address) (payload : Payload) (now : Timespec) (w : World)
    (hid : payload.id = h.id) :
    ((h.onResponse ICMP_ECHOREPLY addr payload now w).1.workers h.worker).time =
      elapsed payload.time (getCurrentTime now) := by
  unfold Host.onResponse
  rw [if_neg (not_not.mpr hid), if_neg (by decide), if_pos rfl]
  exact congrArg Worker.time (if_pos rfl)

theorem hostSend_probe {s : Controller} {h : Host} {env : SendEnv} {probe : Sent}
    (hsent : (s.hostSend h env).1.world.sent = s.world.sent ++ [probe]) :
    probe.payload.id = h.id ∧ probe.payload.time = getCurrentTime env.clock := by
  unfold Controller.hostSend at hsent
  rcases send_packets (s.store { h with
      next := env.time + (s.world.workers h.worker).interval, packets := h.packets + 1 }) h.node
      (s.world.workers h.worker).addr ⟨h.id, h.packets + 1, getCurrentTime env.clock⟩ env with hnone | hone
  · have hnil := hnone.symm.trans hsent
    simp [Controller.store] at hnil
  · have hlast := hone.symm.trans hsent
    cases List.singleton_injective (List.append_cancel_left hlast)
    exact ⟨rfl, rfl⟩

theorem measures_iff_elapsed (r r' : Timespec) :
    Measures r r' ↔ (elapsed (getCurrentTime r) (getCurrentTime r')).toNat = micros r' - micros r := by
  constructor
  · intro h
    let s : Controller := { pid := 0, fd := 7, world := { workers := fun _ => { addr := .inet 0x0100007F } } }
    let host : Host := { node := 0, worker := 0, id := 0, timeout := 0 }
    let probe : Sent := ⟨0, 1, 0, 1, getCurrentTime r⟩
    rw [← h s host { clock := r } probe rfl rfl .empty s.world]
    exact (congrArg UInt64.toNat (onResponse_time (s.hostSend host { clock := r }).2 .empty probe.payload r' s.world rfl)).symm
  · intro h s host env probe hclock hsent addr w
    obtain ⟨hid, htime⟩ := hostSend_probe hsent
    rw [← h, ← hclock, ← htime]
    exact congrArg UInt64.toNat (onResponse_time (s.hostSend host env).2 addr probe.payload r' w hid)

/-- The reply tells the time between two readings, and the clock does not go back, when both nanosecond counts lose the
    same to the microsecond, and no multiple of 2 ^ 64 comes between. --/
theorem measures_iff {r r' : Timespec} (hr : r.nsec < 1000000000) (hr' : r'.nsec < 1000000000) (hle : Before r r') :
    (Measures r r' ∧ getCurrentTime r ≤ getCurrentTime r') ↔
      r.nsec - r.nsec / 1000 = r'.nsec - r'.nsec / 1000 ∧
        (r.sec * 1000000 + r.nsec) / 2 ^ 64 = (r'.sec * 1000000 + r'.nsec) / 2 ^ 64 := by
  rw [measures_iff_elapsed, elapsed_iff, getCurrentTime_toNat, getCurrentTime_toNat]
  unfold micros
  unfold Before at hle
  omega

/-- Nine seconds and a nanosecond. --/
theorem measures_nine :
    (Measures ⟨1, 999⟩ ⟨10, 1000⟩ ∧ getCurrentTime ⟨1, 999⟩ ≤ getCurrentTime ⟨10, 1000⟩) ↔
      999 - 999 / 1000 = 1000 - 1000 / 1000 ∧
        (1 * 1000000 + 999) / 2 ^ 64 = (10 * 1000000 + 1000) / 2 ^ 64 :=
  measures_iff (by decide) (by decide) (Or.inl (by decide))

/-- Over the second, the clock goes back by almost one thousand seconds. --/
theorem clock_goes_back :
    ¬ ∀ r r' : Timespec, r.nsec < 1000000000 → r'.nsec < 1000000000 → Before r r' →
      Measures r r' ∧ getCurrentTime r ≤ getCurrentTime r' := by
  intro h
  obtain ⟨-, hle⟩ := h ⟨1, 999999999⟩ ⟨2, 0⟩ (by decide) (by decide) (Or.inl (by decide))
  exact absurd hle (by decide)

end UdjatNetwork.Icmp
