import UdjatNetwork.Theorems.Passes

/-! # One result for each host

A host that leaves the list, other than by `remove`, has given its worker exactly one result, unless a
packet of an ICMP type without a case of its own took it from the list (`Controller.Loses`). -/

namespace UdjatNetwork.Icmp
open Pass Machine Controller

variable {s t : Controller}

/-- The results that the host in a node gave its worker. -/
def Controller.results (s : Controller) (n : Nat) : List Event :=
  (s.world.log.filter (·.node = n)).filter (·.isSet)

/-- Every inserted host gave its worker at most one result, and exactly one, which is no `invalid`, when it
    left the list and was not removed. -/
def Controller.OneResult (s : Controller) : Prop :=
  ∀ n w, .inserted n w ∈ s.world.log →
    (s.results n).length ≤ 1 ∧
    ((∀ h ∈ s.hosts, h.node ≠ n) → .removed n w ∉ s.world.log →
      ∃ r source, r ≠ .invalid ∧ s.results n = [.set n w r source])

/-- A packet of a type other than the three that give a result leaves all hosts pending. -/
def Controller.KeepsPending (s : Controller) : Input → Prop
  | .handleEvent true recv now => ∀ packet addr, accepted s.pid recv = some (packet, addr) →
      packet.type ≠ ICMP_ECHOREPLY → packet.type ≠ ICMP_DEST_UNREACH → packet.type ≠ ICMP_TIME_EXCEEDED →
      (s.handleEvent true recv now).hosts = s.hosts
  | _ => True

/-! ### The life of a host -/

theorem filter_node_append_ne {log : List Event} {e : Event} {m : Nat} (h : e.node ≠ m) :
    (log ++ [e]).filter (·.node = m) = log.filter (·.node = m) := by
  simp [h]

theorem filter_node_append_eq {log : List Event} {e : Event} {m : Nat} (h : e.node = m) :
    (log ++ [e]).filter (·.node = m) = log.filter (·.node = m) ++ [e] := by
  simp [h]

/-- What happened to the hosts of the list, to those that left it, and to those still to come. -/
structure Life (v : View) : Prop where
  live : ∀ h ∈ v.hosts, v.world.log.filter (·.node = h.node) = [.inserted h.node h.worker]
  gone : ∀ n < v.nodes, (∀ h ∈ v.hosts, h.node ≠ n) →
    ∃ w, v.world.log.filter (·.node = n) = [.inserted n w, .removed n w] ∨
      ∃ r source, r ≠ .invalid ∧ v.world.log.filter (·.node = n) = [.inserted n w, .set n w r source]
  fresh : ∀ n, v.nodes ≤ n → v.world.log.filter (·.node = n) = []

/-- A host leaves the list with one more event, a result or its removal. -/
theorem Life.leave {pre post : List Host} {h : Host} {w w' : World} {n : Nat} {e : Event}
    (hn : Numbered ⟨pre ++ h :: post, w, n⟩) (hu : Life ⟨pre ++ h :: post, w, n⟩) (hlog : w'.log = w.log ++ [e])
    (he : e = .removed h.node h.worker ∨ ∃ r source, r ≠ .invalid ∧ e = .set h.node h.worker r source) :
    Life ⟨pre ++ post, w', n⟩ := by
  have hnode : e.node = h.node := by rcases he with rfl | ⟨r, source, -, rfl⟩ <;> rfl
  have hlive : w.log.filter (·.node = h.node) = [.inserted h.node h.worker] := hu.live h (by simp)
  have hnot : h.node ∉ (pre ++ post).map (·.node) := (nodup_map_middle hn.nodup).2
  have old : ∀ m, m ≠ h.node → w'.log.filter (·.node = m) = w.log.filter (·.node = m) := fun m hm => by
    rw [hlog, filter_node_append_ne (hnode ▸ hm.symm)]
  refine ⟨fun x hx => ?_, fun m hm habs => ?_, fun m hm => ?_⟩
  · have hne : x.node ≠ h.node := fun hxn => hnot (List.mem_map.mpr ⟨x, hx, hxn⟩)
    exact (old x.node hne).trans (hu.live x (by simp at hx ⊢; tauto))
  · by_cases hmn : m = h.node
    · subst hmn
      have hfilter : w'.log.filter (·.node = h.node) = [.inserted h.node h.worker, e] := by
        rw [hlog, filter_node_append_eq hnode, hlive]
        rfl
      refine ⟨h.worker, ?_⟩
      rcases he with rfl | ⟨r, source, hr, rfl⟩
      · exact Or.inl hfilter
      · exact Or.inr ⟨r, source, hr, hfilter⟩
    · obtain ⟨v, hv⟩ := hu.gone m hm fun x hx => by
        rcases List.mem_append.mp hx with hx | hx
        · exact habs x (List.mem_append_left _ hx)
        · rcases List.mem_cons.mp hx with rfl | hx
          · exact fun h' => hmn h'.symm
          · exact habs x (List.mem_append_right _ hx)
      exact ⟨v, by rw [← old m hmn] at hv; exact hv⟩
  · exact (old m (Nat.ne_of_gt (Nat.lt_of_lt_of_le (hn.lt h (by simp)) hm))).trans (hu.fresh m hm)

/-- Without faults, a move keeps the account of the lives. -/
theorem Life.move {u v : View} (hn : Numbered u) (hu : Life u) (m : Move False False u v) : Life v := by
  cases m with
  | @count pre post h w n next packets =>
    refine ⟨fun x hx => ?_, fun m hm habs => hu.gone m hm fun x hx => ?_, hu.fresh⟩
    · rcases List.mem_append.mp hx with hx | hx
      · exact hu.live x (by simp [hx])
      · rcases List.mem_cons.mp hx with rfl | hx
        · exact hu.live h (by simp)
        · exact hu.live x (by simp [hx])
    · rcases List.mem_append.mp hx with hx | hx
      · exact habs x (by simp [hx])
      · rcases List.mem_cons.mp hx with rfl | hx
        · exact habs { x with next, packets } (by simp)
        · exact habs x (by simp [hx])
  | sent | time | address => exact ⟨hu.live, hu.gone, hu.fresh⟩
  | @answer pre post h w n r source hr =>
    exact hu.leave hn rfl (Or.inr ⟨r, source, hr, rfl⟩)
  | fail r source ht => exact ht.elim
  | lose hl => exact hl.elim
  | remove => exact hu.leave hn rfl (Or.inl rfl)
  | @insert hosts w h n x hnode hx hb =>
    subst hnode hx
    have hfresh : w.log.filter (·.node = h.node) = [] := hu.fresh h.node (Nat.le_refl _)
    have old : ∀ m, m ≠ h.node → (w.log ++ [Event.inserted h.node h.worker]).filter (·.node = m) =
        w.log.filter (·.node = m) := fun m hm => filter_node_append_ne hm.symm
    refine ⟨fun y hy => ?_, fun m hm habs => ?_, fun m hm => ?_⟩
    · rcases List.mem_append.mp hy with hy | hy
      · exact (old y.node (Nat.ne_of_lt (hn.lt y hy))).trans (hu.live y hy)
      · rw [List.mem_singleton.mp hy]
        change (w.log ++ [Event.inserted h.node h.worker]).filter (·.node = h.node) = _
        rw [filter_node_append_eq (m := h.node) rfl, hfresh]
        rfl
    · have hne : m ≠ h.node := fun he => habs h (by simp) he.symm
      have hlt : m < h.node := Nat.lt_of_le_of_ne (Nat.le_of_lt_succ hm) hne
      obtain ⟨v, hv⟩ := hu.gone m hlt fun y hy => habs y (by simp [hy])
      exact ⟨v, by rw [← old m hne] at hv; exact hv⟩
    · change h.node + 1 ≤ m at hm
      exact (old m (Nat.ne_of_gt hm)).trans (hu.fresh m (Nat.le_of_succ_le hm))

theorem Life.moves {u v : View} (hn : Numbered u) (hu : Life u) (h : Moves False False u v) : Life v := by
  have both : Numbered v ∧ Life v :=
    h.induct (I := fun v => Numbered v ∧ Life v) (fun _ _ hI m => ⟨hI.1.move m, hI.2.move hI.1 m⟩) ⟨hn, hu⟩
  exact both.2

theorem life_init (pid : Nat) (workers : WorkerId → Worker) : Life (init pid workers).view where
  live := fun _ hx => by cases hx
  gone := fun _ hn => absurd hn (Nat.not_lt_zero _)
  fresh := fun _ _ => rfl

theorem oneResult_of_life (hl : Life s.view) : s.OneResult := by
  intro n w hin
  have hmem : Event.inserted n w ∈ s.world.log.filter (·.node = n) := by simpa [Event.node] using hin
  unfold Controller.results
  by_cases hlive : ∃ h ∈ s.hosts, h.node = n
  · obtain ⟨h, hh, rfl⟩ := hlive
    rw [show s.world.log.filter (·.node = h.node) = [.inserted h.node h.worker] from hl.live h hh]
    exact ⟨by simp [Event.isSet], fun habs => absurd rfl (habs h hh)⟩
  · have habs : ∀ h ∈ s.hosts, h.node ≠ n := fun h hh he => hlive ⟨h, hh, he⟩
    have hlt : n < s.nodes := by
      by_contra hge
      rw [show s.world.log.filter (·.node = n) = [] from hl.fresh n (Nat.not_lt.mp hge)] at hmem
      cases hmem
    obtain ⟨v, hv⟩ := hl.gone n hlt habs
    change s.world.log.filter (·.node = n) = _ ∨ ∃ r source, _ ∧ s.world.log.filter (·.node = n) = _ at hv
    rcases hv with hv | ⟨r, source, hr, hv⟩ <;> rw [hv] at hmem ⊢ <;>
      obtain rfl : w = v := by simpa using hmem
    · have hrem : Event.removed n w ∈ s.world.log.filter (·.node = n) := by simp [hv]
      exact ⟨by simp [Event.isSet], fun _ hno => absurd (List.mem_filter.mp hrem).1 hno⟩
    · exact ⟨by simp [Event.isSet], fun _ _ => ⟨r, source, hr, rfl⟩⟩

/-! ### Packets -/

/-- A packet that passes the checks meets the hosts with its identifier, unless it is an echo request. -/
def Packet.meets (packet : Packet) (h : Host) : Bool :=
  decide (packet.payload.id = h.id) && decide (packet.type ≠ ICMP_ECHO)

theorem responsePred_eq (packet : Packet) (addr : Address) (now : Nat → Timespec) (h : Host) (w : World) :
    responsePred packet addr now h w =
      if packet.meets h then
        ((h.onResponse packet.type addr packet.payload (now h.node) w).1.setBusy h.worker false, .drop)
      else (w, .keep) := by
  unfold responsePred Host.onResponse Packet.meets
  by_cases hid : packet.payload.id = h.id
  · by_cases h8 : packet.type = ICMP_ECHO
    · simp [hid, h8]
    · simp only [hid, h8, ne_eq, not_true_eq_false, not_false_eq_true, decide_true, Bool.and_self, if_true,
        if_false]
      split_ifs <;> rfl
  · simp [hid]

/-- What such a packet leaves of the list, and what it does to the rest of the state. -/
theorem handleEvent_eq {recv : Recv} {packet : Packet} {addr : Address}
    (hacc : accepted s.pid recv = some (packet, addr)) (now : Nat → Timespec) :
    s.handleEvent true recv now =
      { s with
        hosts := s.hosts.filter fun h => !packet.meets h
        world := (s.hosts.filter fun h => packet.meets h).foldl (fun w h =>
          (h.onResponse packet.type addr packet.payload (now h.node) w).1.setBusy h.worker false) s.world } := by
  unfold Controller.handleEvent
  simp only [if_true, hacc]
  rw [sweep_eq _ s.world fun h _ w => responsePred_eq packet addr now h w]

/-- A packet without a result for the hosts takes none from the list, if and only if it is no packet of an
    unexpected type for a pending host. -/
theorem keepsPending_iff {i : Input} : s.KeepsPending i ↔ ¬ s.Loses i := by
  cases i with
  | handleEvent oninput recv now =>
    cases oninput with
    | false => simp [Controller.KeepsPending, Controller.Loses]
    | true =>
      constructor
      · rintro hk ⟨packet, addr, hacc, ⟨h8, h0, h3, h11⟩, h, hh, hid⟩
        have hkept := hk packet addr hacc h0 h3 h11
        rw [handleEvent_eq hacc, List.filter_eq_self] at hkept
        have := hkept h hh
        simp [Packet.meets, hid, h8] at this
      · intro hl packet addr hacc h0 h3 h11
        rw [handleEvent_eq hacc, List.filter_eq_self]
        intro h hh
        by_cases h8 : packet.type = ICMP_ECHO
        · simp [Packet.meets, h8]
        · have hid : packet.payload.id ≠ h.id := fun hid =>
            hl ⟨packet, addr, hacc, ⟨h8, h0, h3, h11⟩, h, hh, hid⟩
          simp [Packet.meets, hid]
  | _ => simp [Controller.KeepsPending, Controller.Loses]

/-! ### Runs -/

/-- While no packet takes a host from the list without a result, every host gives its worker at most one. -/
theorem always_oneResult (pid : Nat) (workers : WorkerId → Worker) (is : List Input) (hset : ∀ i ∈ is, ¬ i.Throws)
    (hl : Along step (fun s i => ¬ s.Loses i) (init pid workers) is) : Always step OneResult (init pid workers) is := by
  have hC := hl.and (along_of_forall hset)
  have inv : Always step (fun s => Numbered s.view ∧ Life s.view) (init pid workers) is := by
    refine always_of_along (fun s i t hs hc ht => ?_) ⟨numbered_init pid workers, life_init pid workers⟩ hC
    have moves : Moves False False s.view t.view := (step_moves hs.1 ht).mono hc.1 hc.2
    exact ⟨hs.1.moves moves, hs.2.moves hs.1 moves⟩
  exact inv.mono fun s hs => oneResult_of_life hs.2

/-- With workers whose `set` does not throw, all along a run every step is defined, every host gives its worker at most
    one result, exactly one when it leaves the list without `remove`, and stays pending when a packet brings no result,
    if and only if no packet of an unexpected type reaches a pending host with its identifier, and no callback of the
    timer visits a host whose packet fails and completes the host that the callback goes on to. --/
theorem one_result_iff (pid : Nat) (workers : WorkerId → Worker) (is : List Input)
    (hset : ∀ i ∈ is, ¬ i.Throws) :
    (Always step OneResult (init pid workers) is ∧ Along step KeepsPending (init pid workers) is ∧
        Along step Defined (init pid workers) is) ↔
      Along step (fun s i => ¬ s.Loses i ∧ s.KeepsNext i) (init pid workers) is := by
  rw [along_and, along_defined_iff]
  constructor
  · rintro ⟨-, hk, hnext⟩
    exact ⟨hk.mono fun _ _ => keepsPending_iff.mp, hnext⟩
  · rintro ⟨hl, hnext⟩
    exact ⟨always_oneResult pid workers is hset hl, hl.mono fun _ _ => keepsPending_iff.mpr, hnext⟩

/-- A timestamp request (type 13) with the identifier of the host takes it from the list without a result. --/
theorem timestamp_request_loses :
    ¬ ∀ (pid : Nat) (workers : WorkerId → Worker) (is : List Input), (∀ i ∈ is, ¬ i.Throws) →
      Always step OneResult (init pid workers) is ∧ Along step KeepsPending (init pid workers) is := by
  intro h
  let packet : Packet := { type := 13, id := htons 1, payload := { id := 0, seq := 1 } }
  let is : List Input := [.insert 0 { start := { socket := some 7 } },
    .handleEvent true (.datagram (List.replicate 20 0 ++ packet.bytes) (.inet 0x0100007F)) fun _ => {}]
  have hset : ∀ i ∈ is, ¬ i.Throws := by simp [is, Input.Throws, SendEnv.Throws]
  have hrun : (exec step (init 1 fun _ => { addr := .inet 0x0100007F }) is).map
      (fun s => (s.hosts, s.world.log)) = some ([], [.inserted 0 0]) := by decide
  obtain ⟨s, hs, he⟩ := Option.map_eq_some_iff.mp hrun
  obtain ⟨hhosts, hlog⟩ := Prod.mk.inj he
  have hone : s.OneResult := (h _ _ _ hset).1.of_exec hs
  obtain ⟨r, source, -, hr⟩ := (hone 0 0 (by simp [hlog])).2 (by simp [hhosts]) (by simp [hlog])
  simp [Controller.results, hlog, Event.isSet] at hr

/-- The result at a run whose only packet is the echo reply. --/
theorem one_result_echo_reply :
    let packet : Packet := { type := 0, id := htons 1, payload := { id := 0, seq := 1 } }
    let is : List Input := [.insert 0 { start := { socket := some 7 } },
      .handleEvent true (.datagram (List.replicate 20 0 ++ packet.bytes) (.inet 0x0100007F)) fun _ => {}]
    let s := init 1 fun _ => { addr := .inet 0x0100007F }
    Always step OneResult s is ∧ Along step KeepsPending s is ∧ Along step Defined s is := by
  intro packet is s
  have hset : ∀ i ∈ is, ¬ i.Throws := by simp [is, Input.Throws, SendEnv.Throws]
  have hpid : (step s (.insert 0 { start := { socket := some 7 } })).map (·.pid) = some 1 := by decide
  have htype : (accepted 1 (.datagram (List.replicate 20 0 ++ packet.bytes) (.inet 0x0100007F))).map
      (fun x => x.1.type) = some 0 := by decide
  refine (one_result_iff 1 _ is hset).mpr ⟨⟨not_false, trivial⟩, fun t ht => ⟨⟨?_, trivial⟩, fun _ _ => trivial⟩⟩
  rintro ⟨p, addr, hacc, ⟨-, hu, -⟩, -⟩
  rw [ht] at hpid
  have ht1 : t.pid = 1 := Option.some.inj hpid
  rw [← ht1, hacc] at htype
  exact hu (Option.some.inj htype)

end UdjatNetwork.Icmp
