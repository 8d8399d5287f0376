import UdjatNetwork.Theorems.ControllerMoves

/-! # The pass of the timer, host by host

A visit of the timer changes the host it visits, and by a send error the hosts with the same identifier. While
identifiers are distinct, or every packet is sent, the pass goes over the hosts one by one: it does to each what it
does in a list of its own. -/

namespace UdjatNetwork.Icmp
open Pass Controller

variable {s : Controller} {h b : Host} {pre post : List Host} {env : Nat → TimerEnv}

/-- The controller with other hosts. -/
def Controller.withHosts (hosts : List Host) (s : Controller) : Controller := { s with hosts }

/-- What the callback of `on_timer` does to a host in a list of its own. -/
def visit (env : Nat → TimerEnv) (h : Host) (s : Controller) : Controller × Visit Host :=
  match timerPred env h.node (s.withHosts [h]) with
  | (t, .keep) => (t, match t.hosts with
    | [] => .drop
    | b :: _ => .keep b)
  | (t, .drop) => (t, .drop)
  | (t, .raise) => (t, .raise)

/-- Distinct nodes, and no host that the send error of another one concerns. -/
def Separate (env : Nat → TimerEnv) (hosts : List Host) : Prop :=
  (hosts.map (·.node)).Nodup ∧ ((∀ n, (env n).send.errno = none) ∨ (hosts.map (·.id)).Nodup)

/-! ### What a visit finds -/

/-- The deadline of the host is over when the timer visits it. -/
def Host.Expired (env : Nat → TimerEnv) (h : Host) : Prop := (env h.node).now > h.timeout

/-- The host is not over its deadline, and its next packet is due. -/
def Host.Due (env : Nat → TimerEnv) (h : Host) : Prop := (env h.node).now ≤ h.timeout ∧ h.next ≤ (env h.node).now

/-- A packet of the host gets as far as `sendto`. -/
def Controller.Reaches (s : Controller) (h : Host) : Prop := 0 ≤ s.fd ∧ ∃ a, (s.world.workers h.worker).addr = .inet a

def Controller.Sends (env : Nat → TimerEnv) (s : Controller) (h : Host) : Prop := h.Due env ∧ s.Reaches h

/-- A packet of the host fails with `ENETUNREACH`. -/
def Controller.Unreachable (env : Nat → TimerEnv) (s : Controller) (h : Host) : Prop :=
  s.Sends env h ∧ (env h.node).send.errno = some ENETUNREACH

section Decidable
variable (env : Nat → TimerEnv) (s : Controller) (h : Host)

instance decidableInet (addr : Address) : Decidable (∃ a, addr = .inet a) :=
  match addr with
  | .inet a => .isTrue ⟨a, rfl⟩
  | .empty | .inet6 _ | .other _ => .isFalse (by simp)

instance : Decidable (h.Expired env) := inferInstanceAs (Decidable (_ > _))

instance : Decidable (h.Due env) := inferInstanceAs (Decidable (_ ∧ _))

instance : Decidable (s.Reaches h) := inferInstanceAs (Decidable (_ ∧ ∃ _, _))

instance : Decidable (s.Sends env h) := inferInstanceAs (Decidable (_ ∧ _))

instance : Decidable (s.Unreachable env h) := inferInstanceAs (Decidable (_ ∧ _))

end Decidable

/-! ### A packet among other hosts -/

theorem send_of_not_inet {node : Nat} {addr : Address} {payload : Payload} {e : SendEnv}
    (haddr : ∀ a, addr ≠ .inet a) : s.send node addr payload e = s := by
  unfold Controller.send
  split
  · rfl
  · cases addr with
    | inet a => exact absurd rfl (haddr a)
    | empty | inet6 | other => rfl

theorem send_of_not_reach {node : Nat} {addr : Address} {payload : Payload} {e : SendEnv}
    (hreach : ¬ (0 ≤ s.fd ∧ ∃ a, addr = .inet a)) : s.send node addr payload e = s := by
  by_cases hfd : s.fd < 0
  · exact if_pos hfd
  · exact send_of_not_inet fun a haddr => hreach ⟨not_lt.mp hfd, a, haddr⟩

/-- A packet whose error, if it has one, concerns no other host. -/
theorem send_withHosts {node : Nat} {addr : Address} {payload : Payload} {e : SendEnv}
    (hothers : 0 ≤ s.fd → (∃ a, addr = .inet a) → e.errno = some ENETUNREACH → ∀ x ∈ pre ++ post, x.id ≠ payload.id) :
    (s.withHosts (pre ++ h :: post)).send node addr payload e =
      ((s.withHosts [h]).send node addr payload e).withHosts
        (pre ++ ((s.withHosts [h]).send node addr payload e).hosts ++ post) := by
  have hsame : s.withHosts (pre ++ h :: post) = (s.withHosts [h]).withHosts (pre ++ (s.withHosts [h]).hosts ++ post) := by
    simp [Controller.withHosts]
  by_cases hfd : s.fd < 0
  · have hsend : ∀ l, (s.withHosts l).send node addr payload e = s.withHosts l := fun l => if_pos hfd
    rw [hsend, hsend, hsame]
  cases addr with
  | inet a =>
    let w : World := { s.world with sent := s.world.sent ++ [{ node, seq := s.seq + 1, payload }] }
    cases herrno : e.errno with
    | none =>
      have hsend : ∀ l, (s.withHosts l).send node (.inet a) payload e =
          { s with hosts := l, seq := s.seq + 1, world := w } := fun l => by
        refine (if_neg hfd).trans ?_
        rw [herrno]
        rfl
      rw [hsend, hsend]
      simp [Controller.withHosts]
    | some code =>
      have hsend : ∀ l, (s.withHosts l).send node (.inet a) payload e =
          { s with hosts := (sweep (errorPred code payload e.throws) l w).1, seq := s.seq + 1,
                   world := (sweep (errorPred code payload e.throws) l w).2.1 } := fun l => by
        refine (if_neg hfd).trans ?_
        rw [herrno]
        rfl
      have hids : ∀ x ∈ pre ++ post, ∀ w, errorPred code payload e.throws x w = (w, .keep) := by
        intro x hx w
        by_cases hcode : code = ENETUNREACH
        · have hid : x.id ≠ payload.id := hothers (not_lt.mp hfd) ⟨a, rfl⟩ (by rw [herrno, hcode]) x hx
          simp [errorPred, Host.onError, Ne.symm hid]
        · simp [errorPred, Host.onError, hcode]
      have hsingle : sweep (errorPred code payload e.throws) ([] ++ h :: []) w = _ :=
        sweep_middle _ h w fun x hx => by cases hx
      rw [List.nil_append] at hsingle
      rw [hsend, hsend, sweep_middle _ h w hids, hsingle]
      rcases errorPred code payload e.throws h w with ⟨w', _ | _ | _⟩ <;> simp [Controller.withHosts]
  | empty | inet6 | other => rw [send_of_not_inet (by simp), send_of_not_inet (by simp), hsame]

theorem store_withHosts (hn : ((pre ++ h :: post).map (·.node)).Nodup) (next : Int) (packets : UInt16) :
    (s.withHosts (pre ++ h :: post)).store { h with next, packets } =
      s.withHosts (pre ++ { h with next, packets } :: post) := by
  simp only [Controller.store, Controller.withHosts, map_store hn]

theorem store_single (s : Controller) (h : Host) (next : Int) (packets : UInt16) :
    (s.withHosts [h]).store { h with next, packets } = s.withHosts [{ h with next, packets }] := by
  simp [Controller.store, Controller.withHosts]

theorem hostSend_withHosts {e : SendEnv} (hn : ((pre ++ h :: post).map (·.node)).Nodup)
    (hothers : s.Reaches h → e.errno = some ENETUNREACH → ∀ x ∈ pre ++ post, x.id ≠ h.id) :
    ((s.withHosts (pre ++ h :: post)).hostSend h e).1 =
      ((s.withHosts [h]).hostSend h e).1.withHosts (pre ++ ((s.withHosts [h]).hostSend h e).1.hosts ++ post) := by
  have hsingle := store_single s h (e.time + (s.world.workers h.worker).interval) (h.packets + 1)
  have hall := store_withHosts (s := s) hn (e.time + (s.world.workers h.worker).interval) (h.packets + 1)
  unfold Controller.hostSend
  dsimp only [Controller.withHosts] at hsingle hall ⊢
  rw [hsingle, hall]
  exact send_withHosts fun hfd haddr => hothers ⟨hfd, haddr⟩

/-! ### The pass -/

theorem find?_node (hn : ((pre ++ h :: post).map (·.node)).Nodup) :
    (pre ++ h :: post).find? (fun x => decide (x.node = h.node)) = some h := by
  have hfilter := filter_node_eq hn
  rw [← List.head?_filter, hfilter]
  rfl

theorem timerPred_eq {n : Nat} (hfind : s.hosts.find? (fun x => decide (x.node = n)) = some h) :
    timerPred env n s = match s.onTimer h (env n) with
      | (t, some false) => ({ t with world := t.world.setBusy h.worker false }, .drop)
      | (t, some true) => (t, .keep)
      | (t, none) => (t, .raise) := by
  rcases ht : s.onTimer h (env n) with ⟨t, _ | _ | _⟩ <;> simp only [timerPred, hfind, ht]

/-- What a visit does, by what is due: the host times out, sends, or stays as it is. -/
theorem visit_cases (env : Nat → TimerEnv) (h : Host) (s : Controller) :
    ((env h.node).now > h.timeout ∧
      visit env h s = ({ s with
        world := (s.world.set h .timeout .empty) }.withHosts [h], .raise) ∧ (env h.node).send.throws h.node = true) ∨
    ((env h.node).now > h.timeout ∧ (env h.node).send.throws h.node = false ∧
      visit env h s = ({ s with world := (s.world.set h .timeout .empty).setBusy h.worker false }.withHosts [h], .drop)) ∨
    ((env h.node).now ≤ h.timeout ∧ h.next ≤ (env h.node).now ∧
      visit env h s = (((s.withHosts [h]).hostSend h (env h.node).send).1,
        match ((s.withHosts [h]).hostSend h (env h.node).send).1.hosts with
        | [] => .drop
        | b :: _ => .keep b)) ∨
    ((env h.node).now ≤ h.timeout ∧ (env h.node).now < h.next ∧ visit env h s = (s.withHosts [h], .keep h)) := by
  have hfind : (s.withHosts [h]).hosts.find? (fun x => decide (x.node = h.node)) = some h := by
    simp [Controller.withHosts]
  have hpred : timerPred env h.node (s.withHosts [h]) = _ := timerPred_eq hfind
  unfold visit
  rw [hpred]
  unfold Controller.onTimer
  by_cases hnow : (env h.node).now > h.timeout
  · rw [if_pos hnow]
    cases (env h.node).send.throws h.node with
    | true => exact Or.inl ⟨hnow, rfl, rfl⟩
    | false => exact Or.inr (Or.inl ⟨hnow, rfl, rfl⟩)
  · rw [if_neg hnow]
    have hnow : (env h.node).now ≤ h.timeout := not_lt.mp hnow
    by_cases hnext : (env h.node).now ≥ h.next
    · rw [if_pos hnext]
      exact Or.inr (Or.inr (Or.inl ⟨hnow, hnext, rfl⟩))
    · rw [if_neg hnext]
      exact Or.inr (Or.inr (Or.inr ⟨hnow, not_le.mp hnext, rfl⟩))

/-- The host after a packet of its own. -/
def Host.counted (h : Host) (s : Controller) (e : SendEnv) : Host :=
  { h with next := e.time + (s.world.workers h.worker).interval, packets := h.packets + 1 }

theorem hostSend_eq (s : Controller) (h : Host) (e : SendEnv) :
    ((s.withHosts [h]).hostSend h e).1 = (s.withHosts [h.counted s e]).send h.node (s.world.workers h.worker).addr
      { id := h.id, seq := h.packets + 1, time := getCurrentTime e.clock } e := by
  have hstore := store_single s h (e.time + (s.world.workers h.worker).interval) (h.packets + 1)
  unfold Controller.hostSend
  dsimp only [Controller.withHosts] at hstore ⊢
  rw [hstore]
  rfl

/-- A host in a list of its own sends, and is gone if a send error completes it. -/
theorem hostSend_single (s : Controller) (h : Host) (e : SendEnv) :
    ((s.withHosts [h]).hostSend h e).1.hosts = [] ∨ ((s.withHosts [h]).hostSend h e).1.hosts = [h.counted s e] := by
  rw [hostSend_eq]
  exact List.sublist_singleton.mp (send_hosts _ _ _ _).1

/-- The packet that a visit of the host hands to `sendto`. -/
def Controller.probe (s : Controller) (h : Host) (e : SendEnv) : Sent where
  node := h.node
  seq := s.seq + 1
  payload := { id := h.id, seq := h.packets + 1, time := getCurrentTime e.clock }

/-- The packets sent for the host in a node. -/
def Controller.probes (s : Controller) (n : Nat) : List Sent := s.world.sent.filter (·.node = n)

def Controller.sentWorld (s : Controller) (h : Host) (e : SendEnv) : World :=
  { s.world with sent := s.world.sent ++ [s.probe h e] }

/-- What comes of the packet of a host in a list of its own. -/
theorem hostSend_cases (s : Controller) (h : Host) (e : SendEnv) :
    let t := ((s.withHosts [h]).hostSend h e).1
    (¬ s.Reaches h ∧ t.world = s.world ∧ t.hosts = [h.counted s e]) ∨
    (s.Reaches h ∧ e.errno ≠ some ENETUNREACH ∧ t.world = s.sentWorld h e ∧ t.hosts = [h.counted s e]) ∨
    (s.Reaches h ∧ e.errno = some ENETUNREACH ∧ e.throws h.node = true ∧
      t.world = (s.sentWorld h e).set h .networkUnreachable .empty ∧ t.hosts = [h.counted s e]) ∨
    (s.Reaches h ∧ e.errno = some ENETUNREACH ∧ e.throws h.node = false ∧
      t.world = ((s.sentWorld h e).set h .networkUnreachable .empty).setBusy h.worker false ∧ t.hosts = []) := by
  intro t
  have ht : t = _ := hostSend_eq s h e
  by_cases hreach : s.Reaches h
  · obtain ⟨hfd, a, haddr⟩ := hreach
    have hreach : s.Reaches h := ⟨hfd, a, haddr⟩
    rw [haddr, Controller.send, if_neg (by exact not_lt.mpr hfd)] at ht
    dsimp only at ht
    cases herrno : e.errno with
    | none =>
      rw [herrno] at ht
      exact Or.inr (Or.inl ⟨hreach, by simp, by rw [ht]; rfl, by rw [ht]; rfl⟩)
    | some code =>
      rw [herrno] at ht
      by_cases hcode : code = ENETUNREACH
      · subst hcode
        cases hthrows : e.throws h.node with
        | true =>
          refine Or.inr (Or.inr (Or.inl ⟨hreach, rfl, rfl, ?_, ?_⟩)) <;>
            simp [ht, sweep, errorPred, Host.onError, Host.counted, Controller.withHosts, hthrows]
          rfl
        | false =>
          refine Or.inr (Or.inr (Or.inr ⟨hreach, rfl, rfl, ?_, ?_⟩)) <;>
            simp [ht, sweep, errorPred, Host.onError, Host.counted, Controller.withHosts, hthrows]
          rfl
      · refine Or.inr (Or.inl ⟨hreach, by simpa using hcode, ?_, ?_⟩) <;>
          simp [ht, sweep, errorPred, Host.onError, Host.counted, Controller.withHosts, hcode]
        rfl
  · rw [send_of_not_reach (by exact hreach)] at ht
    exact Or.inl ⟨hreach, by rw [ht]; rfl, by rw [ht]; rfl⟩

/-- What a visit leaves of the rest of the state, and what becomes of the host. -/
inductive Visited (env : Nat → TimerEnv) (h : Host) (s : Controller) : World → Visit Host → Prop
  | throwing (hover : h.Expired env) (hthrows : (env h.node).send.throws h.node = true) :
    Visited env h s (s.world.set h .timeout .empty) .raise
  | expired (hover : h.Expired env) (hthrows : (env h.node).send.throws h.node = false) :
    Visited env h s ((s.world.set h .timeout .empty).setBusy h.worker false) .drop
  | silent (hover : ¬ h.Expired env) (hsend : ¬ s.Sends env h) {b : Host} (hb : b = h ∨ b = h.counted s (env h.node).send) :
    Visited env h s s.world (.keep b)
  | sent (hsend : s.Sends env h) (hok : ¬ s.Unreachable env h) :
    Visited env h s (s.sentWorld h (env h.node).send) (.keep (h.counted s (env h.node).send))
  | failed (hfail : s.Unreachable env h) (hthrows : (env h.node).send.throws h.node = true) :
    Visited env h s ((s.sentWorld h (env h.node).send).set h .networkUnreachable .empty)
      (.keep (h.counted s (env h.node).send))
  | gone (hfail : s.Unreachable env h) (hthrows : (env h.node).send.throws h.node = false) :
    Visited env h s (((s.sentWorld h (env h.node).send).set h .networkUnreachable .empty).setBusy h.worker false) .drop

theorem visited (env : Nat → TimerEnv) (h : Host) (s : Controller) :
    Visited env h s (visit env h s).1.world (visit env h s).2 := by
  rcases visit_cases env h s with
      ⟨hnow, hvisit, hthrows⟩ | ⟨hnow, hthrows, hvisit⟩ | ⟨hnow, hnext, hvisit⟩ | ⟨hnow, hnext, hvisit⟩ <;> rw [hvisit]
  · exact .throwing hnow hthrows
  · exact .expired hnow hthrows
  · obtain ⟨hreach, hworld, hhosts⟩ | ⟨hreach, herrno, hworld, hhosts⟩ | ⟨hreach, herrno, hthrows, hworld, hhosts⟩ |
      ⟨hreach, herrno, hthrows, hworld, hhosts⟩ := hostSend_cases s h (env h.node).send <;> simp only [hworld, hhosts]
    · exact .silent (not_lt.mpr hnow) (fun hs => hreach hs.2) (Or.inr rfl)
    · exact .sent ⟨⟨hnow, hnext⟩, hreach⟩ fun hu => herrno hu.2
    · exact .failed ⟨⟨⟨hnow, hnext⟩, hreach⟩, herrno⟩ hthrows
    · exact .gone ⟨⟨⟨hnow, hnext⟩, hreach⟩, herrno⟩ hthrows
  · exact .silent (not_lt.mpr hnow) (fun hs => absurd hs.1.2 (not_le.mpr hnext)) (Or.inl rfl)

theorem visit_fd (env : Nat → TimerEnv) (h : Host) (s : Controller) : (visit env h s).1.fd = s.fd := by
  rcases visit_cases env h s with ⟨-, hvisit, -⟩ | ⟨-, -, hvisit⟩ | ⟨-, -, hvisit⟩ | ⟨-, -, hvisit⟩ <;> rw [hvisit]
  · rfl
  · rfl
  · exact (send_frame _ _ _ _ _).1
  · rfl

theorem Visited.keep {w : World} (hv : Visited env h s w (.keep b)) : b = h ∨ b = h.counted s (env h.node).send := by
  cases hv with
  | silent hover hsend hb => exact hb
  | sent => exact Or.inr rfl
  | failed => exact Or.inr rfl

theorem visit_keep (hv : (visit env h s).2 = .keep b) : b = h ∨ b = h.counted s (env h.node).send := by
  have hvisit := visited env h s
  rw [hv] at hvisit
  exact hvisit.keep

theorem Visited.raise_iff {w : World} {v : Visit Host} (hv : Visited env h s w v) :
    v = .raise ↔ h.Expired env ∧ (env h.node).send.throws h.node = true := by
  cases hv with
  | throwing hover hthrows => exact iff_of_true rfl ⟨hover, hthrows⟩
  | expired hover hthrows => simp [hthrows]
  | silent hover => exact iff_of_false (fun he => by cases he) fun he => hover he.1
  | sent hsend => exact iff_of_false (fun he => by cases he) fun he => absurd he.1 (not_lt.mpr hsend.1.1)
  | failed hfail => exact iff_of_false (fun he => by cases he) fun he => absurd he.1 (not_lt.mpr hfail.1.1.1)
  | gone hfail => exact iff_of_false (fun he => by cases he) fun he => absurd he.1 (not_lt.mpr hfail.1.1.1)

theorem visit_raise (env : Nat → TimerEnv) (h : Host) (s : Controller) :
    (visit env h s).2 = .raise ↔ (env h.node).now > h.timeout ∧ (env h.node).send.throws h.node = true :=
  (visited env h s).raise_iff

/-- A visit does to its host what it does in a list of its own, unless its packet fails for other hosts as well. -/
theorem visit_local (hn : ((pre ++ h :: post).map (·.node)).Nodup)
    (hothers : s.Unreachable env h → ∀ x ∈ pre ++ post, x.id ≠ h.id) :
    Local Host.node withHosts (visit env) unlink (timerPred env) pre h post s := by
  have hpred : timerPred env h.node (s.withHosts (pre ++ h :: post)) = _ := timerPred_eq (find?_node hn)
  unfold Local
  rw [hpred]
  unfold Controller.onTimer
  rcases visit_cases env h s with
      ⟨hnow, hvisit, hthrows⟩ | ⟨hnow, hthrows, hvisit⟩ | ⟨hnow, hnext, hvisit⟩ | ⟨hnow, hnext, hvisit⟩ <;> rw [hvisit]
  · simp only [if_pos hnow, hthrows]
    rfl
  · refine Or.inr ⟨?_, ?_⟩
    · simp only [if_pos hnow, hthrows]
      rfl
    · simp only [unlink, Controller.withHosts, filter_node_ne hn]
  · have hsend := hostSend_withHosts (s := s) hn fun hreach herrno => hothers ⟨⟨⟨hnow, hnext⟩, hreach⟩, herrno⟩
    simp only [if_neg (not_lt.mpr hnow), if_pos hnext]
    rcases hostSend_single s h (env h.node).send with hnone | hone
    · rw [hnone, List.append_nil] at hsend
      simp only [hnone, hsend]
      exact Or.inl trivial
    · rw [hone] at hsend
      simp only [hone, hsend]
      exact ⟨rfl, by simp⟩
  · simp only [if_neg (not_lt.mpr hnow), if_neg (not_le.mpr hnext)]
    exact ⟨trivial, rfl⟩

theorem Separate.local (hs : Separate env (pre ++ h :: post)) (s : Controller) :
    Local Host.node withHosts (visit env) unlink (timerPred env) pre h post s := by
  obtain ⟨hn, herrno | hids⟩ := hs
  · exact visit_local hn fun hu => absurd (hu.2.symm.trans (herrno h.node)) (by simp)
  · exact visit_local hn fun _ x hx he => (nodup_map_middle hids).2 (List.mem_map.mpr ⟨x, hx, he⟩)

theorem Separate.drop (hs : Separate env (pre ++ h :: post)) : Separate env (pre ++ post) :=
  ⟨(nodup_map_middle hs.1).1, hs.2.imp id fun hids => (nodup_map_middle hids).1⟩

theorem Separate.keep (hs : Separate env (pre ++ h :: post)) (hn : b.node = h.node) (hid : b.id = h.id) :
    Separate env (pre ++ b :: post) := by
  obtain ⟨hnodes, hids⟩ := hs
  refine ⟨?_, hids.imp id fun hids => ?_⟩
  · simpa [hn] using hnodes
  · simpa [hid] using hids

/-- While the hosts are separate, the callback visits each of them in a list of its own. -/
theorem timerTask_eq (hs : Separate env s.hosts) :
    s.timerTask env =
      if (visits (visit env) s.hosts s).2.2 then
        .threw ((visits (visit env) s.hosts s).2.1.withHosts (visits (visit env) s.hosts s).1)
      else .ok ((visits (visit env) s.hosts s).2.1.withHosts (visits (visit env) s.hosts s).1).stopIfEmpty := by
  have hpass : removeIf nodeList unlink (timerPred env) s.nodeList s = _ :=
    removeIf_eq_visits Host.node withHosts (visit env) (Q := Separate env) (fun _ _ => rfl)
      (fun done h rest w w' b hq hf => by
        rcases visit_keep (congrArg Prod.snd hf) with rfl | rfl
        · exact hq
        · exact hq.keep rfl rfl)
      (fun done h rest hq => hq.drop) (fun done h rest w hq => hq.local w) [] s.hosts s hs
  unfold Controller.timerTask
  rw [hpass]
  split_ifs <;> rfl

/-- What the callback of the timer leaves, while the hosts are separate. -/
theorem task_step (hs : Separate env s.hosts) (hq : s.queued ≠ 0) :
    ∃ t u, s.step (.task env) = some t ∧ u.world = s.world ∧ u.fd = s.fd ∧
      t.world = (visits (visit env) s.hosts u).2.1.world ∧ t.hosts = (visits (visit env) s.hosts u).1 := by
  have hstep : s.step (.task env) = _ := if_neg hq
  have htask : ({ s with queued := s.queued - 1 } : Controller).timerTask env = _ :=
    timerTask_eq hs
  rw [hstep, htask]
  split_ifs
  · exact ⟨_, { s with queued := s.queued - 1 }, rfl, rfl, rfl, rfl, rfl⟩
  · refine ⟨_, { s with queued := s.queued - 1 }, rfl, rfl, rfl, ?_, ?_⟩
    · exact congrArg View.world view_stopIfEmpty
    · exact congrArg View.hosts view_stopIfEmpty

end UdjatNetwork.Icmp
