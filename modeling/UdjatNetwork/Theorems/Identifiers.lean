import Mathlib.Data.Nat.ModEq
import UdjatNetwork.Theorems.Results

/-! # Identifiers of hosts

A host takes its identifier from a counter of 16 bits, which does not look at the hosts that are pending. -/

namespace UdjatNetwork.Icmp
open Pass Machine Controller

variable {s t : Controller} {h : Host} {i : Input}

/-- No two hosts of the list have the same identifier. -/
def Controller.Distinct (s : Controller) : Prop := (s.hosts.map (·.id)).Nodup

/-- An echo reply to a packet that was sent for a host that is not in the list any more. -/
def Controller.Late (s : Controller) (packet : Packet) : Prop :=
  packet.type = ICMP_ECHOREPLY ∧ ∃ p ∈ s.world.sent, p.payload = packet.payload ∧ ∀ h ∈ s.hosts, h.node ≠ p.node

/-- A step takes effect, and no host leaves the list by what concerns another one: an insertion completes none, a tick
    those whose time is over or whose own packet fails, a packet at most one, and a late reply none. -/
def Controller.Apart (s : Controller) (i : Input) : Prop :=
  ∃ t, s.step i = some t ∧
    match i with
    | .insert _ _ => ∀ h ∈ s.hosts, h.node ∈ t.nodeList
    | .task env => ∀ h ∈ s.hosts, (env h.node).now ≤ h.timeout → (env h.node).send.errno = none → h.node ∈ t.nodeList
    | .handleEvent true recv _ => s.hosts.length ≤ t.hosts.length + 1 ∧
        ∀ packet addr, accepted s.pid recv = some (packet, addr) → s.Late packet → t.hosts = s.hosts
    | _ => True

/-- A host that is inserted, or whose late reply arrives, and a pending one are not a multiple of 2^16 insertions
    apart. -/
def Controller.Unwrapped (s : Controller) : Input → Prop
  | .insert w env => s.world.busy w = false → (s.openSocket env.start).2 = true →
      ∀ h ∈ s.hosts, ¬ h.node ≡ s.nodes [MOD 2 ^ 16]
  | .handleEvent true recv _ => ∀ packet addr, accepted s.pid recv = some (packet, addr) →
      packet.type = ICMP_ECHOREPLY → ∀ p ∈ s.world.sent, p.payload = packet.payload →
      (∀ h ∈ s.hosts, h.node ≠ p.node) → ∀ h ∈ s.hosts, ¬ h.node ≡ p.node [MOD 2 ^ 16]
  | _ => True

/-! ### The counter -/

theorem ofNat_eq_iff {m n : Nat} : UInt16.ofNat m = UInt16.ofNat n ↔ m ≡ n [MOD 2 ^ 16] := by
  rw [← UInt16.toNat_inj, UInt16.toNat_ofNat', UInt16.toNat_ofNat']
  exact Iff.rfl

/-- Identifiers count the nodes, in the list, in what was sent, and for the next host. -/
structure Tagged (s : Controller) : Prop where
  next : s.id = UInt16.ofNat s.nodes
  hosts : ∀ h ∈ s.hosts, h.id = UInt16.ofNat h.node
  sent : ∀ p ∈ s.world.sent, p.payload.id = UInt16.ofNat p.node

theorem tagged_init (pid : Nat) (workers : WorkerId → Worker) : Tagged (init pid workers) :=
  ⟨rfl, fun _ hx => (by cases hx), fun _ hp => (by cases hp)⟩

/-- A step that keeps the counter and sends nothing, and after which no host is new. -/
theorem Tagged.of_subset (hs : Tagged s) (hid : t.id = s.id) (hnodes : t.nodes = s.nodes)
    (hhosts : ∀ h ∈ t.hosts, h ∈ s.hosts) (hsent : t.world.sent = s.world.sent) : Tagged t where
  next := by rw [hid, hnodes, hs.next]
  hosts := fun h hh => hs.hosts h (hhosts h hh)
  sent := fun p hp => hs.sent p (hsent ▸ hp)

theorem Tagged.of_view (hs : Tagged s) (hview : t.view = s.view) (hid : t.id = s.id) : Tagged t := by
  have hhosts : t.hosts = s.hosts := congrArg View.hosts hview
  have hworld : t.world = s.world := congrArg View.world hview
  exact hs.of_subset hid (congrArg View.nodes hview) (fun h hh => hhosts ▸ hh) (by rw [hworld])

theorem send_tagged (hs : Tagged s) {node : Nat} (addr : Address) {payload : Payload} (e : SendEnv)
    (hid : payload.id = UInt16.ofNat node) : Tagged (s.send node addr payload e) := by
  have hsent : ∀ p ∈ s.world.sent ++ [⟨node, s.seq + 1, payload⟩], p.payload.id = UInt16.ofNat p.node := fun p hp => by
    rcases List.mem_append.mp hp with hp | hp
    · exact hs.sent p hp
    · rw [List.mem_singleton.mp hp]
      exact hid
  rcases send_cases s node addr payload e with hsend | ⟨-, hsend⟩ | ⟨code, w, -, rfl, hsend⟩ <;> rw [hsend]
  · exact hs
  · exact ⟨hs.next, hs.hosts, hsent⟩
  · refine ⟨hs.next, fun h hh => hs.hosts h ((sweep_sublist _ _ _).subset hh), fun p hp => ?_⟩
    dsimp only at hp
    rw [errorSweep_sent] at hp
    exact hsent p hp

/-- The host that sends is in the list already, or comes there with the identifier that it has. -/
theorem hostSend_tagged (hs : Tagged s) (hid : h.id = UInt16.ofNat h.node) (e : SendEnv) :
    Tagged (s.hostSend h e).1 := by
  have hstored : ∀ b : Host, b.id = UInt16.ofNat b.node → Tagged (s.store b) := fun b hb => by
    refine ⟨hs.next, fun x hx => ?_, hs.sent⟩
    obtain ⟨y, hy, rfl⟩ := List.mem_map.mp hx
    split_ifs
    · exact hb
    · exact hs.hosts y hy
  unfold Controller.hostSend
  refine send_tagged (hstored _ ?_) _ e ?_
  · exact hid
  · exact hid

theorem afterFirst_tagged (hs : Tagged s) (w : WorkerId) (e : InsertEnv) : Tagged (s.afterFirst w e) := by
  have hid : s.id + 1 = UInt16.ofNat (s.nodes + 1) := by
    rw [hs.next, UInt16.ofNat_add]
    rfl
  have hnext : Tagged { s with
      id := s.id + 1, nodes := s.nodes + 1, world := s.world.record (.inserted s.nodes w) } :=
    ⟨hid, hs.hosts, hs.sent⟩
  refine send_tagged hnext _ e.send ?_
  exact hs.next

theorem insert_tagged {w : WorkerId} {e : InsertEnv} (hn : Numbered s.view) (hs : Tagged s)
    (ht : (s.insert w e).state? = some t) : Tagged t := by
  rcases insert_cases s w e with ⟨u, hu, hview, hid⟩ | ⟨u, hu, -, v, hv, rfl⟩ <;> rw [hu] at ht <;> cases ht
  · exact hs.of_view hview hid
  · have hview : v.view = s.view := start_view (by rw [hv]; rfl)
    have hv : Tagged v := hs.of_view hview (start_id (by rw [hv]; rfl))
    have hfresh : ∀ x ∈ v.hosts, x.node ≠ v.nodes := fun x hx => Nat.ne_of_lt ((hview ▸ hn).lt x hx)
    have hbusy : Tagged { v with world := v.world.setBusy w true } := ⟨hv.next, hv.hosts, hv.sent⟩
    have hfirst := afterFirst_tagged hbusy w e
    rw [emplaceBack_eq (by exact hfresh)]
    refine ⟨hfirst.next, fun h hh => ?_, hfirst.sent⟩
    rcases List.mem_append.mp hh with hh | hh
    · exact hfirst.hosts h hh
    · rw [List.mem_singleton.mp hh]
      exact hv.next

theorem timerPred_tagged {env : Nat → TimerEnv} {n : Nat} {v : Verdict} (hs : Tagged s)
    (hp : timerPred env n s = (t, v)) : Tagged t := by
  rcases timerPred_cases hp with ⟨-, rfl⟩ | ⟨h, hh, -, ⟨-, rfl⟩ | ⟨-, -, rfl⟩ | ⟨-, rfl⟩⟩
  · exact hs
  · exact ⟨hs.next, hs.hosts, hs.sent⟩
  · exact ⟨hs.next, hs.hosts, hs.sent⟩
  · exact hostSend_tagged hs (hs.hosts h hh) _

theorem stopIfEmpty_tagged (hs : Tagged s) : Tagged s.stopIfEmpty := by
  unfold stopIfEmpty
  split
  · exact ⟨hs.next, hs.hosts, hs.sent⟩
  · exact hs

theorem timerTask_tagged {env : Nat → TimerEnv} (hs : Tagged s) (ht : (s.timerTask env).state? = some t) :
    Tagged t := by
  refine timerTask_induct (fun n u u' v hI hp => ?_) (fun u hI => stopIfEmpty_tagged hI) hs ht
  have hu := timerPred_tagged hI hp
  split_ifs
  · exact hu.of_subset rfl rfl (fun _ hh => (List.mem_filter.mp hh).1) rfl
  · exact hu

theorem step_tagged (hn : Numbered s.view) (hs : Tagged s) (ht : s.step i = some t) : Tagged t := by
  cases i with
  | insert w e => exact insert_tagged hn hs ht
  | remove w =>
    cases ht
    refine stopIfEmpty_tagged (hs.of_subset rfl rfl (fun h hh => (sweep_sublist _ _ _).subset hh) ?_)
    refine sweep_keeps _ World.sent (fun h u u' v hp => ?_) _ _
    rcases removePred_cases hp with ⟨-, -, rfl⟩ | ⟨-, -, rfl⟩ <;> rfl
  | onTimer =>
    cases ht
    split
    · exact ⟨hs.next, hs.hosts, hs.sent⟩
    · exact hs
  | task env =>
    change (if s.queued = 0 then some s else _) = some t at ht
    split at ht
    · cases ht
      exact hs
    · exact timerTask_tagged (s := { s with queued := s.queued - 1 }) ⟨hs.next, hs.hosts, hs.sent⟩ ht
  | handleEvent oninput recv now =>
    cases ht
    unfold Controller.handleEvent
    split
    · split
      · exact hs
      · refine hs.of_subset rfl rfl (fun h hh => (sweep_sublist _ _ _).subset hh) ?_
        refine sweep_keeps _ World.sent (fun h u u' v hp => ?_) _ _
        rcases responsePred_cases hp with ⟨-, rfl⟩ | ⟨-, -, ⟨_, rfl⟩ | ⟨_, -, rfl⟩ | ⟨-, rfl⟩⟩ <;> rfl
    · exact hs
  | address w addr =>
    cases ht
    exact ⟨hs.next, hs.hosts, hs.sent⟩

/-! ### Steps -/

/-- An insertion that gets through appends a host, and drops no host with another identifier. -/
theorem insert_hosts (hn : Numbered s.view) (w : WorkerId) (e : InsertEnv) :
    ∃ t, s.step (.insert w e) = some t ∧
      ((t.hosts = s.hosts ∧ ¬ (s.world.busy w = false ∧ (s.openSocket e.start).2 = true)) ∨
        (s.world.busy w = false ∧ (s.openSocket e.start).2 = true ∧ ∃ l x, t.hosts = l ++ [x] ∧ x.node = s.nodes ∧
          l.Sublist s.hosts ∧ ∀ y ∈ s.hosts, y.id ≠ s.id → y ∈ l)) := by
  obtain ⟨t, ht, hview, -⟩ | ⟨t, ht, hb, u, hu, rfl⟩ := insert_cases s w e <;>
    refine ⟨_, by rw [Controller.step, ht]; rfl, ?_⟩
  · refine Or.inl ⟨congrArg View.hosts hview, ?_⟩
    rintro ⟨hb, ho⟩
    obtain ⟨u, hu⟩ := start_ok_iff.mpr ho
    simp [Controller.insert, hb, hu] at ht
  · have hview : u.view = s.view := start_view (by rw [hu]; rfl)
    have hhosts : u.hosts = s.hosts := congrArg View.hosts hview
    have hnodes : u.nodes = s.nodes := congrArg View.nodes hview
    have hid : u.id = s.id := start_id (by rw [hu]; rfl)
    have hfresh : ∀ x ∈ u.hosts, x.node ≠ u.nodes := fun x hx => Nat.ne_of_lt ((hview ▸ hn).lt x hx)
    let v : Controller := { u with world := u.world.setBusy w true }
    obtain ⟨hsub, hkept⟩ : (v.afterFirst w e).hosts.Sublist u.hosts ∧
        ∀ y ∈ u.hosts, y.id ≠ u.id → y ∈ (v.afterFirst w e).hosts := send_hosts _ _ _ _
    rw [hhosts] at hsub hkept
    rw [hid] at hkept
    refine Or.inr ⟨hb, start_ok_iff.mp ⟨u, hu⟩, (v.afterFirst w e).hosts, v.newHost w e, ?_, hnodes, hsub, hkept⟩
    rw [emplaceBack_eq (by exact hfresh)]

theorem length_filter_le_one {α κ : Type} (key : α → κ) (k : κ) {l : List α} {p : α → Bool} (hl : (l.map key).Nodup)
    (hp : ∀ a, p a = true → key a = k) : (l.filter p).length ≤ 1 := by
  have hkeys : (l.filter p).map key = List.replicate (l.filter p).length k := by
    rw [List.eq_replicate_iff, List.length_map]
    refine ⟨rfl, fun x hx => ?_⟩
    obtain ⟨a, ha, rfl⟩ := List.mem_map.mp hx
    exact hp a (List.mem_filter.mp ha).2
  have hnodup : ((l.filter p).map key).Nodup := (List.filter_sublist.map key).nodup hl
  rw [hkeys] at hnodup
  exact List.nodup_replicate.mp hnodup

theorem handleEvent_hosts {packet : Packet} {addr : Address} {recv : Recv}
    (hacc : accepted s.pid recv = some (packet, addr)) (now : Nat → Timespec) :
    (s.handleEvent true recv now).hosts = s.hosts.filter fun h => !packet.meets h := by
  rw [handleEvent_eq hacc]

theorem handleEvent_length (hd : s.Distinct) {recv : Recv} (now : Nat → Timespec) :
    s.hosts.length ≤ (s.handleEvent true recv now).hosts.length + 1 := by
  cases hacc : accepted s.pid recv with
  | none =>
    unfold Controller.handleEvent
    simp only [if_true, hacc]
    exact Nat.le_succ _
  | some p =>
    obtain ⟨packet, addr⟩ := p
    have hone : (s.hosts.filter fun h => packet.meets h).length ≤ 1 := by
      refine length_filter_le_one Host.id packet.payload.id hd fun h hh => ?_
      simp only [Packet.meets, Bool.and_eq_true, decide_eq_true_eq] at hh
      exact hh.1.symm
    rw [handleEvent_hosts hacc]
    have htotal := List.length_eq_length_filter_add (l := s.hosts) fun h => packet.meets h
    omega

/-- A late reply leaves the list as it is, if and only if no pending host has its identifier. -/
theorem late_iff (hs : Tagged s) {packet : Packet} {addr : Address} {recv : Recv} {now : Nat → Timespec} {p : Sent}
    (hacc : accepted s.pid recv = some (packet, addr)) (htype : packet.type = ICMP_ECHOREPLY) (hp : p ∈ s.world.sent)
    (hpayload : p.payload = packet.payload) :
    (s.handleEvent true recv now).hosts = s.hosts ↔ ∀ h ∈ s.hosts, ¬ h.node ≡ p.node [MOD 2 ^ 16] := by
  rw [handleEvent_hosts hacc, List.filter_eq_self]
  refine forall₂_congr fun h hh => ?_
  have hmeets : packet.meets h = true ↔ packet.payload.id = h.id := by
    simp [Packet.meets, htype, ICMP_ECHOREPLY, ICMP_ECHO]
  have hid : packet.payload.id = h.id ↔ h.node ≡ p.node [MOD 2 ^ 16] := by
    rw [← hpayload, hs.sent p hp, hs.hosts h hh, ofNat_eq_iff]
    exact ⟨Nat.ModEq.symm, Nat.ModEq.symm⟩
  rw [← hid, ← hmeets]
  simp

theorem visit_key {env : Nat → TimerEnv} {b : Host} (hv : (visit env h s).2 = .keep b) : b.node = h.node ∧ b.id = h.id := by
  rcases visit_keep hv with rfl | rfl <;> exact ⟨rfl, rfl⟩

theorem visit_kept {env : Nat → TimerEnv} (hnow : (env h.node).now ≤ h.timeout)
    (herrno : (env h.node).send.errno = none) (s : Controller) :
    ∃ b, (visit env h s).2 = .keep b ∧ b.node = h.node := by
  rcases visit_cases env h s with ⟨hover, -⟩ | ⟨hover, -⟩ | ⟨-, -, hvisit⟩ | ⟨-, -, hvisit⟩
  · exact absurd hover (not_lt.mpr hnow)
  · exact absurd hover (not_lt.mpr hnow)
  · have hhosts : ((s.withHosts [h]).hostSend h (env h.node).send).1.hosts = [h.counted s (env h.node).send] := by
      rw [hostSend_eq, send_hosts_of_none herrno]
      rfl
    rw [hvisit, hhosts]
    exact ⟨_, rfl, rfl⟩
  · rw [hvisit]
    exact ⟨_, rfl, rfl⟩

theorem insert_apart {w : WorkerId} {e : InsertEnv} (hn : Numbered s.view) (hs : Tagged s) (hd : s.Distinct)
    (hu : s.Unwrapped (.insert w e)) :
    ∃ t, s.step (.insert w e) = some t ∧ t.Distinct ∧ ∀ h ∈ s.hosts, h.node ∈ t.nodeList := by
  obtain ⟨t, ht, ⟨hhosts, -⟩ | ⟨hb, ho, l, x, hhosts, hx, hsub, hkept⟩⟩ := insert_hosts hn w e
  · refine ⟨t, ht, ?_, fun h hh => ?_⟩
    · rwa [Controller.Distinct, hhosts]
    · exact List.mem_map.mpr ⟨h, hhosts ▸ hh, rfl⟩
  · have hother : ∀ y ∈ s.hosts, y.id ≠ s.id := fun y hy hid => by
      rw [hs.next, hs.hosts y hy, ofNat_eq_iff] at hid
      exact hu hb ho y hy hid
    have hxid : x.id = s.id := by
      rw [(step_tagged hn hs ht).hosts x (by simp [hhosts]), hx, hs.next]
    refine ⟨t, ht, ?_, fun h hh => List.mem_map.mpr ⟨h, ?_, rfl⟩⟩
    · rw [Controller.Distinct, hhosts, List.map_append]
      refine List.Nodup.append ((hsub.map _).nodup hd) (List.nodup_singleton _) fun k hk hk' => ?_
      obtain ⟨y, hy, rfl⟩ := List.mem_map.mp hk
      exact hother y (hsub.subset hy) ((List.mem_singleton.mp hk').trans hxid)
    · rw [hhosts]
      exact List.mem_append_left _ (hkept h hh (hother h hh))

theorem task_apart {env : Nat → TimerEnv} (hn : Numbered s.view) (hd : s.Distinct) :
    ∃ t, s.step (.task env) = some t ∧ t.Distinct ∧ ∀ h ∈ s.hosts, (env h.node).now ≤ h.timeout →
      (env h.node).send.errno = none → h.node ∈ t.nodeList := by
  by_cases hq : s.queued = 0
  · exact ⟨s, if_pos hq, hd, fun h hh _ _ => List.mem_map.mpr ⟨h, hh, rfl⟩⟩
  · have hsep : Separate env s.hosts := ⟨hn.nodup, Or.inr hd⟩
    obtain ⟨t, u, ht, -, -, -, hhosts⟩ := task_step hsep hq
    refine ⟨t, ht, ?_, fun h hh hnow herrno => ?_⟩
    · rw [Controller.Distinct, hhosts]
      exact (visits_sublist _ (fun _ _ _ hv => (visit_key hv).2) _ _).nodup hd
    · rw [Controller.nodeList, hhosts]
      exact mem_visits _ (visit_kept hnow herrno) hh u

theorem remove_distinct (hd : s.Distinct) (w : WorkerId) : (s.remove w).Distinct := by
  have hhosts : (s.remove w).hosts = (sweep (removePred w) s.hosts s.world).1 := congrArg View.hosts view_stopIfEmpty
  rw [Controller.Distinct, hhosts]
  exact ((sweep_sublist _ _ _).map _).nodup hd

theorem handleEvent_distinct (hd : s.Distinct) (oninput : Bool) (recv : Recv) (now : Nat → Timespec) :
    (s.handleEvent oninput recv now).Distinct := by
  unfold Controller.handleEvent
  split
  · split
    · exact hd
    · exact ((sweep_sublist _ _ _).map _).nodup hd
  · exact hd

/-- The step lemma: a step of hosts that are less than a round of the counter apart. -/
theorem step_apart (hn : Numbered s.view) (hs : Tagged s) (hd : s.Distinct) (hu : s.Unwrapped i) :
    s.Apart i ∧ ∀ t, s.step i = some t → t.Distinct := by
  have both : ∀ {t : Controller}, s.step i = some t → t.Distinct → ∀ u, s.step i = some u → u.Distinct :=
    fun ht hdt u hu => Option.some.inj (ht.symm.trans hu) ▸ hdt
  cases i with
  | insert w e =>
    obtain ⟨t, ht, hdt, hkept⟩ := insert_apart hn hs hd hu
    exact ⟨⟨t, ht, hkept⟩, both ht hdt⟩
  | remove w => exact ⟨⟨_, rfl, trivial⟩, both rfl (remove_distinct hd w)⟩
  | onTimer =>
    refine ⟨⟨_, rfl, trivial⟩, both rfl ?_⟩
    split <;> exact hd
  | task env =>
    obtain ⟨t, ht, hdt, hkept⟩ := task_apart hn hd
    exact ⟨⟨t, ht, hkept⟩, both ht hdt⟩
  | handleEvent oninput recv now =>
    refine ⟨⟨_, rfl, ?_⟩, both rfl (handleEvent_distinct hd oninput recv now)⟩
    cases oninput with
    | false => trivial
    | true =>
      refine ⟨handleEvent_length hd now, fun packet addr hacc ⟨htype, p, hp, hpayload, hgone⟩ => ?_⟩
      exact (late_iff hs hacc htype hp hpayload).mpr (hu packet addr hacc htype p hp hpayload hgone)
  | address w addr => exact ⟨⟨_, rfl, trivial⟩, both rfl hd⟩

/-- Conversely, a host inserted or a late reply a round of the counter apart from a pending host does it wrong. -/
theorem unwrapped_of_apart (hn : Numbered s.view) (hs : Tagged s) (ha : s.Apart i)
    (hd : ∀ t, s.step i = some t → t.Distinct) : s.Unwrapped i := by
  obtain ⟨t, ht, ha⟩ := ha
  cases i with
  | insert w e =>
    intro hb ho h hh hround
    obtain ⟨u, hu, ⟨-, hno⟩ | ⟨-, -, l, x, hhosts, hx, -, -⟩⟩ := insert_hosts hn w e
    · exact hno ⟨hb, ho⟩
    · obtain rfl : t = u := Option.some.inj (ht.symm.trans hu)
      have htagged := step_tagged hn hs ht
      obtain ⟨y, hy, hnode⟩ := List.mem_map.mp (ha h hh)
      have hxt : x ∈ t.hosts := by simp [hhosts]
      have hid : y.id = x.id := by
        rw [htagged.hosts y hy, htagged.hosts x hxt, hnode, hx]
        exact ofNat_eq_iff.mpr hround
      have hsame : y = x := List.inj_on_of_nodup_map (hd t ht) hy hxt hid
      have hlt : h.node < s.nodes := hn.lt h hh
      rw [← hnode, hsame, hx] at hlt
      exact absurd hlt (lt_irrefl _)
  | handleEvent oninput recv now =>
    cases oninput with
    | false => trivial
    | true =>
      intro packet addr hacc htype p hp hpayload hgone
      cases ht
      exact (late_iff hs hacc htype hp hpayload).mp (ha.2 packet addr hacc ⟨htype, p, hp, hpayload, hgone⟩)
  | _ => trivial

/-! ### Runs -/

theorem apart_iff {is : List Input} (hn : Numbered s.view) (hs : Tagged s) (hd : s.Distinct) :
    (Always step Distinct s is ∧ Along step Apart s is) ↔ Along step Unwrapped s is := by
  induction is generalizing s with
  | nil => exact ⟨fun _ => trivial, fun _ => ⟨hd, trivial⟩⟩
  | cons i is ih =>
    have ih' : ∀ {t : Controller}, s.step i = some t → t.Distinct →
        ((Always step Distinct t is ∧ Along step Apart t is) ↔ Along step Unwrapped t is) := fun ht hdt =>
      ih (step_numbered hn ht) (step_tagged hn hs ht) hdt
    constructor
    · rintro ⟨⟨-, hdistinct⟩, ha, hapart⟩
      have hnext : ∀ t, s.step i = some t → t.Distinct := fun t ht => (hdistinct t ht).first
      exact ⟨unwrapped_of_apart hn hs ha hnext, fun t ht => (ih' ht (hnext t ht)).mp ⟨hdistinct t ht, hapart t ht⟩⟩
    · rintro ⟨hu, hunwrapped⟩
      obtain ⟨ha, hnext⟩ := step_apart hn hs hd hu
      exact ⟨⟨hd, fun t ht => ((ih' ht (hnext t ht)).mpr (hunwrapped t ht)).1⟩,
        ha, fun t ht => ((ih' ht (hnext t ht)).mpr (hunwrapped t ht)).2⟩

/-- In every state of a run the hosts have distinct identifiers, and no step completes a host by what concerns another
    one, if and only if a host that is inserted, or whose late reply arrives, is never a multiple of 2^16 insertions
    apart from a pending one. --/
theorem distinct_iff (pid : Nat) (workers : WorkerId → Worker) (is : List Input) :
    (Always step Distinct (init pid workers) is ∧ Along step Apart (init pid workers) is) ↔
      Along step Unwrapped (init pid workers) is :=
  apart_iff (numbered_init pid workers) (tagged_init pid workers) List.nodup_nil

/-! ### A round of the counter -/

/-- The host that waits. -/
def waitingHost : Host := { node := 0, worker := 0, id := 0, timeout := 1, packets := 1, next := 1 }

/-- A host of worker 0 waits, while worker 1 is inserted and removed `k` times. -/
structure Waiting (k : Nat) (s : Controller) : Prop where
  numbered : Numbered s.view
  tagged : Tagged s
  hosts : s.hosts = [waitingHost]
  nodes : s.nodes = k + 1
  socket : s.fd = 7
  timer : s.timer = true
  busy : s.world.busy 1 = false
  addr : ∀ v, (s.world.workers v).addr = .inet 0x0100007F

/-- Both workers are inserted with this. -/
def waitingEnv : InsertEnv := { start := { socket := some 7 } }

variable {k : Nat}

theorem waiting_insert (hs : Waiting k s) :
    ∃ t x, s.step (.insert 1 waitingEnv) = some t ∧ t.hosts = [waitingHost, x] ∧ x.node = k + 1 ∧ x.worker = 1 ∧
      t.nodes = k + 2 ∧ t.fd = 7 ∧ t.timer = true ∧ ∀ v, (t.world.workers v).addr = .inet 0x0100007F := by
  have hopen : s.start waitingEnv.start = .ok { s with timer := true, handler := true } := by
    have hsocket : s.openSocket waitingEnv.start = (s, true) := if_neg (by rw [hs.socket]; decide)
    unfold Controller.start
    rw [hsocket]
  let v : Controller := { s with timer := true, handler := true, world := s.world.setBusy 1 true }
  have hfresh : ∀ x ∈ v.hosts, x.node ≠ v.nodes := fun x hx => Nat.ne_of_lt (hs.numbered.lt x hx)
  have hinsert : s.insert 1 waitingEnv = .ok (v.emplaceBack 1 waitingEnv) := by
    unfold Controller.insert
    rw [hs.busy, hopen]
    rfl
  obtain ⟨hfd, hnodes, htimer⟩ : (v.afterFirst 1 waitingEnv).fd = s.fd ∧
      (v.afterFirst 1 waitingEnv).nodes = s.nodes + 1 ∧ (v.afterFirst 1 waitingEnv).timer = true :=
    send_frame _ _ _ _ _
  have hfirst : (v.afterFirst 1 waitingEnv).hosts = s.hosts := send_hosts_of_none rfl
  obtain ⟨sent, hworld⟩ : ∃ sent, (v.afterFirst 1 waitingEnv).world =
      { v.world.record (.inserted s.nodes 1) with sent } := send_world_of_none rfl
  rw [emplaceBack_eq hfresh] at hinsert
  refine ⟨_, v.newHost 1 waitingEnv, by rw [Controller.step, hinsert]; rfl, ?_, hs.nodes, rfl, ?_, ?_, ?_,
    fun w => ?_⟩
  · dsimp only
    rw [hfirst, hs.hosts]
    rfl
  · dsimp only
    rw [hnodes, hs.nodes]
  · dsimp only
    rw [hfd, hs.socket]
  · exact htimer
  · dsimp only
    rw [hworld]
    exact (World.addr_setBusy _ _ _ _).trans (hs.addr w)

theorem waiting_round (hs : Waiting k s) :
    ∃ t, exec step s [.insert 1 waitingEnv, .remove 1] = some t ∧ Waiting (k + 1) t := by
  obtain ⟨t, x, ht, hhosts, hxnode, hxworker, hnodes, hfd, htimer, haddr⟩ := waiting_insert hs
  have hn := step_numbered hs.numbered ht
  have htagged := step_tagged hs.numbered hs.tagged ht
  have hremove : t.step (.remove 1) = some (t.remove 1) := rfl
  have hleft : t.remove 1 = { t with
      hosts := [waitingHost], world := (t.world.setBusy 1 false).record (.removed (k + 1) 1) } := by
    simp [Controller.remove, hhosts, sweep, removePred, waitingHost, hxworker, hxnode, stopIfEmpty]
  refine ⟨t.remove 1, by rw [exec, ht]; rfl, step_numbered hn hremove, step_tagged hn htagged hremove,
    ?_, ?_, ?_, ?_, ?_, fun v => ?_⟩ <;> rw [hleft]
  · exact hnodes
  · exact hfd
  · exact htimer
  · simp
  · exact (World.addr_setBusy _ _ _ _).trans (haddr v)

theorem waiting_rounds (hs : Waiting k s) (m : Nat) :
    ∃ t, exec step s (List.replicate m [.insert 1 waitingEnv, .remove 1]).flatten = some t ∧ Waiting (k + m) t := by
  induction m generalizing k s with
  | zero => exact ⟨s, rfl, hs⟩
  | succ m ih =>
    obtain ⟨t, ht, hwaiting⟩ := waiting_round hs
    obtain ⟨u, hu, hlast⟩ := ih hwaiting
    refine ⟨u, ?_, by rwa [Nat.add_right_comm, Nat.add_assoc] at hlast⟩
    rw [List.replicate_succ, List.flatten_cons, exec_append, ht]
    exact hu

theorem waiting_first : ∃ t, (init 1 fun _ => { addr := .inet 0x0100007F }).step (.insert 0 waitingEnv) = some t ∧
    Waiting 0 t := by
  set s := init 1 fun _ => { addr := .inet 0x0100007F }
  obtain ⟨t, ht⟩ : ∃ t, s.step (.insert 0 waitingEnv) = some t := ⟨_, rfl⟩
  have hn : Numbered s.view := numbered_init _ _
  have hstate : (s.step (.insert 0 waitingEnv)).map (fun t => (t.hosts, t.nodes, t.fd, t.timer, t.world.busy 1)) =
      some ([waitingHost], 1, 7, true, false) := by decide
  simp only [ht, Option.map_some, Option.some.injEq, Prod.mk.injEq] at hstate
  obtain ⟨hhosts, hnodes, hfd, htimer, hbusy⟩ := hstate
  refine ⟨t, ht, step_numbered hn ht, step_tagged hn (tagged_init _ _) ht, hhosts, hnodes, hfd, htimer, hbusy, fun v => ?_⟩
  cases ht
  exact (World.addr_setBusy _ _ _ _).trans rfl

/-- Worker 1 is inserted for the 65536th time, while the host of worker 0 waits: both hosts have the identifier 0. -/
theorem waiting_pair : ∃ is t x, exec step (init 1 fun _ => { addr := .inet 0x0100007F }) is = some t ∧
    Numbered t.view ∧ t.hosts = [waitingHost, x] ∧ x.node = 65536 ∧ x.id = 0 ∧ t.fd = 7 ∧ t.timer = true ∧
      ∀ v, (t.world.workers v).addr = .inet 0x0100007F := by
  obtain ⟨s, hs, hfirst⟩ := waiting_first
  obtain ⟨t, ht, hlast⟩ := waiting_rounds hfirst 65535
  obtain ⟨u, x, hu, hhosts, hx, -, -, hfd, htimer, haddr⟩ := waiting_insert hlast
  refine ⟨.insert 0 waitingEnv :: ((List.replicate 65535 [.insert 1 waitingEnv, .remove 1]).flatten ++
    [.insert 1 waitingEnv]), u, x, ?_, step_numbered hlast.numbered hu, hhosts, hx, ?_, hfd, htimer, haddr⟩
  · rw [exec, hs, Option.bind_some, exec_append, ht, Option.bind_some, exec, hu]
    rfl
  · rw [(step_tagged hlast.numbered hlast.tagged hu).hosts x (by simp [hhosts]), hx]
    rfl

/-- While the host of worker 0 waits, worker 1 is inserted for the 65536th time. --/
theorem identifier_wraps :
    ¬ ∀ (pid : Nat) (workers : WorkerId → Worker) (is : List Input),
      Always step Distinct (init pid workers) is ∧ Along step Apart (init pid workers) is := by
  intro h
  obtain ⟨is, t, x, hreached, -, hhosts, -, hx, -⟩ := waiting_pair
  have hdistinct : t.Distinct := (h _ _ is).1.of_exec hreached
  rw [Controller.Distinct, hhosts] at hdistinct
  simp [hx, waitingHost] at hdistinct

end UdjatNetwork.Icmp
