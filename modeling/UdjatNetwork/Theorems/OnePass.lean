import UdjatNetwork.Theorems.Spares

/-! # What one pass of the timer does

With hosts that have identifiers and workers of their own, a pass takes from the list those hosts whose deadline is over
and those whose packet finds no network, gives each of their workers one result, and sends one packet for every other
host that is due, as far as its worker has an address of the one family that `send` supports. -/

namespace UdjatNetwork.Icmp
open Pass Machine Controller

variable {s t u : Controller} {h : Host} {env : Nat → TimerEnv} {w w' w'' : World} {v : Visit Host} {n : Nat}

/-- The results that the worker got. -/
def World.received (w : World) (id : WorkerId) : List Response :=
  w.log.filterMap fun
    | .set _ v r _ => if v = id then some r else none
    | _ => none

/-- The hosts that the pass takes from the list. -/
def Controller.Leaves (env : Nat → TimerEnv) (s : Controller) (h : Host) : Prop := h.Expired env ∨ s.Unreachable env h

instance (env : Nat → TimerEnv) (s : Controller) (h : Host) : Decidable (s.Leaves env h) :=
  inferInstanceAs (Decidable (_ ∨ _))

/-- What the worker of the host gets in the pass. -/
def Controller.outcome (env : Nat → TimerEnv) (s : Controller) (h : Host) : List Response :=
  if h.Expired env then [.timeout] else if s.Unreachable env h then [.networkUnreachable] else []

/-- The list, and what the workers of its hosts got, after a pass. -/
structure Passed (env : Nat → TimerEnv) (s t : Controller) : Prop where
  list : t.nodeList = (s.hosts.filter fun h => ¬ s.Leaves env h).map (·.node)
  busy : ∀ h ∈ s.hosts, s.Leaves env h → t.world.busy h.worker = false
  received : ∀ h ∈ s.hosts, t.world.received h.worker = s.world.received h.worker ++ s.outcome env h

/-! ### One visit -/

theorem received_set (w : World) (h : Host) (r : Response) (source : Address) (id : WorkerId) :
    (w.set h r source).received id = if h.worker = id then w.received id ++ [r] else w.received id := by
  unfold World.received
  rw [World.log_set, List.filterMap_append]
  split_ifs with hid <;> simp [hid]

/-- Other workers get nothing from a visit. -/
theorem Visited.others (hv : Visited env h s w v) {id : WorkerId} (hid : h.worker ≠ id) :
    w.busy id = s.world.busy id ∧ w.received id = s.world.received id := by
  have hset : ∀ (w : World) (r : Response), (w.set h r .empty).received id = w.received id := fun w r => by
    rw [received_set, if_neg hid]
  cases hv with
  | throwing => exact ⟨rfl, hset _ _⟩
  | expired => exact ⟨by simp [Ne.symm hid], hset _ _⟩
  | silent | sent => exact ⟨rfl, rfl⟩
  | failed => exact ⟨rfl, hset _ _⟩
  | gone => exact ⟨by simp [Ne.symm hid, Controller.sentWorld], hset _ _⟩

/-- What the pass does for a host: its worker, and its packets. -/
structure Served (env : Nat → TimerEnv) (s : Controller) (h : Host) (w w' : World) : Prop where
  busy : s.Leaves env h → w'.busy h.worker = false
  received : w'.received h.worker = w.received h.worker ++ s.outcome env h
  sends : s.Sends env h → ∃ p, w'.sent.filter (·.node = h.node) = w.sent.filter (·.node = h.node) ++ [p]
  silent : ¬ s.Sends env h → w'.sent.filter (·.node = h.node) = w.sent.filter (·.node = h.node)

theorem not_sends_of_expired (hover : h.Expired env) : ¬ s.Sends env h := fun hs => absurd hover (not_lt.mpr hs.1.1)

theorem sentWorld_filter (s : Controller) (h : Host) (e : SendEnv) :
    (s.sentWorld h e).sent.filter (·.node = h.node) = s.world.sent.filter (·.node = h.node) ++ [s.probe h e] := by
  simp [Controller.sentWorld, Controller.probe]

/-- The step lemma: a visit serves its host, unless the worker throws. -/
theorem Visited.served (hv : Visited env h s w v) (hset : s.Leaves env h → (env h.node).send.throws h.node = false) :
    Served env s h s.world w := by
  cases hv with
  | throwing hover hthrows => simp [hset (Or.inl hover)] at hthrows
  | expired hover =>
    refine ⟨fun _ => by simp, ?_, fun hs => absurd hs (not_sends_of_expired hover), fun _ => rfl⟩
    rw [Controller.outcome, if_pos hover]
    exact (received_set _ _ _ _ _).trans (if_pos rfl)
  | silent hover hsend =>
    have hfail : ¬ s.Unreachable env h := fun hu => hsend hu.1
    refine ⟨fun hl => absurd hl (not_or.mpr ⟨hover, hfail⟩), ?_, fun hs => absurd hs hsend, fun _ => rfl⟩
    rw [Controller.outcome, if_neg hover, if_neg hfail, List.append_nil]
  | sent hsend hok =>
    have hover : ¬ h.Expired env := fun hover => not_sends_of_expired hover hsend
    refine ⟨fun hl => absurd hl (not_or.mpr ⟨hover, hok⟩), ?_, fun _ => ⟨_, sentWorld_filter _ _ _⟩, fun hs => absurd hsend hs⟩
    rw [Controller.outcome, if_neg hover, if_neg hok, List.append_nil]
    rfl
  | failed hfail hthrows => simp [hset (Or.inr hfail)] at hthrows
  | gone hfail =>
    have hover : ¬ h.Expired env := fun hover => not_sends_of_expired hover hfail.1
    refine ⟨fun _ => by simp, ?_, fun _ => ⟨_, sentWorld_filter _ _ _⟩, fun hs => absurd hfail.1 hs⟩
    rw [Controller.outcome, if_neg hover, if_pos hfail]
    exact (received_set _ _ _ _ _).trans (if_pos rfl)

/-- The visit keeps the host in its node, or takes it from the list. -/
theorem Visited.fate (hv : Visited env h s w v) (hset : s.Leaves env h → (env h.node).send.throws h.node = false) :
    (s.Leaves env h ∧ v = .drop) ∨ (¬ s.Leaves env h ∧ ∃ b, v = .keep b ∧ b.node = h.node) := by
  cases hv with
  | throwing hover hthrows => simp [hset (Or.inl hover)] at hthrows
  | expired hover => exact Or.inl ⟨Or.inl hover, rfl⟩
  | silent hover hsend hb =>
    refine Or.inr ⟨not_or.mpr ⟨hover, fun hu => hsend hu.1⟩, _, rfl, ?_⟩
    rcases hb with rfl | rfl <;> rfl
  | sent hsend hok => exact Or.inr ⟨not_or.mpr ⟨fun hover => not_sends_of_expired hover hsend, hok⟩, _, rfl, rfl⟩
  | failed hfail hthrows => simp [hset (Or.inr hfail)] at hthrows
  | gone hfail => exact Or.inl ⟨Or.inr hfail, rfl⟩

/-! ### The pass -/

theorem SameReach.leaves (hu : SameReach s u) : u.Leaves env h ↔ s.Leaves env h := by
  unfold Controller.Leaves
  rw [hu.unreachable]

theorem SameReach.outcome (hu : SameReach s u) : u.outcome env h = s.outcome env h := by
  simp only [Controller.outcome, hu.unreachable]

/-- A visit before that of the host, of another host, changes nothing for it. -/
theorem Served.after (hs : Served env u h w w') (hu : SameReach s u) (hspares : Spares h.node w'' w)
    (hothers : w.received h.worker = w''.received h.worker) : Served env s h w'' w' where
  busy := fun hl => hs.busy (hu.leaves.mpr hl)
  received := by rw [hs.received, hothers, hu.outcome]
  sends := fun hp => by
    obtain ⟨p, hp⟩ := hs.sends (hu.sends.mpr hp)
    exact ⟨p, by rw [hp, hspares.sent]⟩
  silent := fun hp => (hs.silent fun hp' => hp (hu.sends.mp hp')).trans hspares.sent

/-- The visits after that of the host, of other hosts, change nothing for it. -/
theorem Served.before (hs : Served env s h w w') (hspares : Spares h.node w' w'')
    (hothers : w''.busy h.worker = w'.busy h.worker ∧ w''.received h.worker = w'.received h.worker) :
    Served env s h w w'' where
  busy := fun hl => hothers.1.trans (hs.busy hl)
  received := hothers.2.trans hs.received
  sends := fun hp => by
    obtain ⟨p, hp⟩ := hs.sends hp
    exact ⟨p, hspares.sent.trans hp⟩
  silent := fun hp => hspares.sent.trans (hs.silent hp)

theorem visits_others {l : List Host} {id : WorkerId} (hl : ∀ x ∈ l, x.worker ≠ id) (s : Controller) :
    (visits (visit env) l s).2.1.world.busy id = s.world.busy id ∧
      (visits (visit env) l s).2.1.world.received id = s.world.received id := by
  refine visits_induct (visit env) (I := fun u => u.world.busy id = s.world.busy id ∧
    u.world.received id = s.world.received id) ?_ ⟨rfl, rfl⟩
  rintro x hx u ⟨hbusy, hreceived⟩
  have hv := (visited env x u).others (hl x hx)
  exact ⟨hv.1.trans hbusy, hv.2.trans hreceived⟩

/-- The run lemma: every host of the list is visited once, and served. -/
theorem visits_pass {l : List Host} (hn : (l.map (·.node)).Nodup) (hw : (l.map (·.worker)).Nodup)
    (hset : ∀ h ∈ l, s.Leaves env h → (env h.node).send.throws h.node = false) :
    (visits (visit env) l s).2.2 = false ∧
    (visits (visit env) l s).1.map (·.node) = (l.filter fun h => ¬ s.Leaves env h).map (·.node) ∧
    ∀ h ∈ l, Served env s h s.world (visits (visit env) l s).2.1.world := by
  induction l generalizing s with
  | nil => exact ⟨rfl, rfl, fun h hh => by cases hh⟩
  | cons h l ih =>
    have hv := visited env h s
    have hserved := hv.served (hset h List.mem_cons_self)
    have hreach := visit_sameReach env h s
    obtain ⟨hnode, hn⟩ := List.nodup_cons.mp hn
    obtain ⟨hworker, hw⟩ := List.nodup_cons.mp hw
    have hnodes : ∀ x ∈ l, x.node ≠ h.node := fun x hx he => hnode (List.mem_map.mpr ⟨x, hx, he⟩)
    have hworkers : ∀ x ∈ l, x.worker ≠ h.worker := fun x hx he => hworker (List.mem_map.mpr ⟨x, hx, he⟩)
    obtain ⟨hraised, hlist, hrest⟩ := ih hn hw fun x hx hl => hset x (List.mem_cons_of_mem h hx) (hreach.leaves.mp hl)
    have hspares : Spares h.node (visit env h s).1.world (visits (visit env) l (visit env h s).1).2.1.world :=
      (visits_spares hnodes _).1
    have hothers : (visits (visit env) l (visit env h s).1).2.1.world.busy h.worker = _ ∧
        (visits (visit env) l (visit env h s).1).2.1.world.received h.worker = _ := visits_others hworkers _
    -- The visits of the rest leave the host alone, and its visit leaves the rest alone.
    have hall : ∀ x ∈ h :: l, Served env s x s.world (visits (visit env) l (visit env h s).1).2.1.world := by
      intro x hx
      rcases List.mem_cons.mp hx with rfl | hx
      · exact hserved.before hspares hothers
      · exact (hrest x hx).after hreach (hv.spares (hnodes x hx).symm) (hv.others (hworkers x hx).symm).2
    have hsame : (l.filter fun x => ¬ (visit env h s).1.Leaves env x) = l.filter fun x => ¬ s.Leaves env x :=
      List.filter_congr fun x _ => by simp only [hreach.leaves]
    rw [hsame] at hlist
    rw [visits, List.filter_cons]
    rcases hvisit : visit env h s with ⟨u, v⟩
    rw [hvisit] at hv hraised hlist hall
    rcases hv.fate (hset h List.mem_cons_self) with ⟨hleaves, rfl⟩ | ⟨hleaves, b, rfl, hb⟩
    · refine ⟨hraised, ?_, hall⟩
      simpa [hleaves] using hlist
    · refine ⟨hraised, ?_, hall⟩
      simpa [hleaves, hb] using hlist

/-- With distinct identifiers and workers, and workers that take their result without an exception, a pass keeps the
    list in its order, without exactly those hosts that time out or whose packet fails with `ENETUNREACH`. Each of those
    gives its worker one result, and the others none. A host that is due sends one packet, if the socket is open and its
    worker has an IPv4 address, and no packet otherwise. --/
theorem pass_exact (hn : (s.hosts.map (·.node)).Nodup) (hid : (s.hosts.map (·.id)).Nodup)
    (hw : (s.hosts.map (·.worker)).Nodup)
    (hset : ∀ h ∈ s.hosts, s.Leaves env h → (env h.node).send.throws h.node = false) :
    ∃ t, s.timerTask env = .ok t ∧ Passed env s t ∧ ∀ h ∈ s.hosts,
      (s.Sends env h → ∃ p, t.probes h.node = s.probes h.node ++ [p]) ∧
      (¬ s.Sends env h → t.probes h.node = s.probes h.node) := by
  obtain ⟨hraised, hlist, hserved⟩ := visits_pass hn hw hset
  have hpass : s.timerTask env = _ := timerTask_eq ⟨hn, Or.inr hid⟩
  rw [hraised] at hpass
  refine ⟨_, hpass, ?_⟩
  generalize ht : ((visits (visit env) s.hosts s).2.1.withHosts (visits (visit env) s.hosts s).1).stopIfEmpty = t
  have hview : t.view = ⟨(visits (visit env) s.hosts s).1, (visits (visit env) s.hosts s).2.1.world, _⟩ :=
    ht ▸ view_stopIfEmpty
  have hhosts : t.hosts = _ := congrArg View.hosts hview
  have hworld : t.world = _ := congrArg View.world hview
  refine ⟨⟨?_, fun h hh hl => ?_, fun h hh => ?_⟩, fun h hh => ?_⟩
  · rw [Controller.nodeList, hhosts]
    exact hlist
  · rw [hworld]
    exact (hserved h hh).busy hl
  · rw [hworld]
    exact (hserved h hh).received
  · rw [Controller.probes, hworld]
    exact ⟨(hserved h hh).sends, (hserved h hh).silent⟩

/-- A host is due whose worker has an IPv6 address: no packet is sent for it. --/
theorem no_packet_for_inet6 :
    ¬ ∀ (s : Controller) (env : Nat → TimerEnv), (s.hosts.map (·.node)).Nodup → (s.hosts.map (·.id)).Nodup →
      (s.hosts.map (·.worker)).Nodup →
      (∀ h ∈ s.hosts, s.Leaves env h → (env h.node).send.throws h.node = false) →
      ∃ t, s.timerTask env = .ok t ∧ Passed env s t ∧
        ∀ h ∈ s.hosts, h.Due env → ∃ p, t.probes h.node = s.probes h.node ++ [p] := by
  intro h
  let host : Host := { node := 0, worker := 0, id := 0, timeout := 10 }
  let s : Controller :=
    { pid := 1, fd := 7, hosts := [host], nodes := 1, world := { workers := fun _ => { addr := .inet6 1, busy := true } } }
  obtain ⟨t, ht, -, hprobes⟩ := h s (fun _ => { now := 5 }) (by decide) (by decide) (by decide) (fun _ _ _ => rfl)
  have hsent : (s.timerTask fun _ => { now := 5 }).state?.map (·.world.sent) = some [] := by decide
  rw [ht] at hsent
  have hnone : t.world.sent = [] := Option.some.inj hsent
  obtain ⟨p, hp⟩ := hprobes host List.mem_cons_self (by decide)
  simp [Controller.probes, hnone] at hp

/-- The result at a list of a host whose deadline is over, one whose packet fails and one whose packet is sent. --/
theorem pass_of_three :
    let host : Nat → Int → Host := fun n timeout => { node := n, worker := n, id := UInt16.ofNat n, timeout }
    let s : Controller :=
      { pid := 1, fd := 7, hosts := [host 0 4, host 1 10, host 2 10], nodes := 3,
        world := { workers := fun _ => { addr := .inet 1, busy := true } } }
    let env : Nat → TimerEnv := fun n => { now := 5, send := { errno := if n = 1 then some ENETUNREACH else none } }
    ∃ t, s.timerTask env = .ok t ∧ Passed env s t ∧ ∀ h ∈ s.hosts,
      (s.Sends env h → ∃ p, t.probes h.node = s.probes h.node ++ [p]) ∧
      (¬ s.Sends env h → t.probes h.node = s.probes h.node) :=
  pass_exact (by decide) (by decide) (by decide) fun _ _ _ => rfl

end UdjatNetwork.Icmp
