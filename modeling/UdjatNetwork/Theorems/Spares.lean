import UdjatNetwork.Theorems.Results

/-! # What a call does to the other hosts

While every packet is sent, a call leaves those hosts alone that it is not about. -/

namespace UdjatNetwork.Icmp
open Pass Machine Controller

variable {s t u : Controller} {h : Host} {post : List Host} {env : Nat → TimerEnv} {n : Nat}

/-- Nothing happens to the host in the node, and the workers keep their addresses and timers. -/
structure Spares (n : Nat) (w w' : World) : Prop where
  events : w'.log.filter (·.node = n) = w.log.filter (·.node = n)
  sent : w'.sent.filter (·.node = n) = w.sent.filter (·.node = n)
  addr : ∀ v, (w'.workers v).addr = (w.workers v).addr
  interval : ∀ v, (w'.workers v).interval = (w.workers v).interval

section Spares
variable {w w' w'' : World}

theorem Spares.refl (n : Nat) (w : World) : Spares n w w := ⟨rfl, rfl, fun _ => rfl, fun _ => rfl⟩

theorem Spares.trans (h : Spares n w w') (h' : Spares n w' w'') : Spares n w w'' where
  events := h'.events.trans h.events
  sent := h'.sent.trans h.sent
  addr := fun v => (h'.addr v).trans (h.addr v)
  interval := fun v => (h'.interval v).trans (h.interval v)

theorem spares_record {e : Event} (he : e.node ≠ n) (w : World) : Spares n w (w.record e) :=
  ⟨filter_node_append_ne he, rfl, fun _ => rfl, fun _ => rfl⟩

theorem spares_set (hn : h.node ≠ n) (w : World) (r : Response) (source : Address) : Spares n w (w.set h r source) :=
  spares_record (e := .set h.node h.worker r source) hn w

theorem spares_setBusy (n : Nat) (w : World) (id : WorkerId) (b : Bool) : Spares n w (w.setBusy id b) :=
  ⟨rfl, rfl, fun v => w.addr_setBusy v id b, fun v => w.interval_setBusy v id b⟩

theorem spares_setTime (n : Nat) (w : World) (id : WorkerId) (time : UInt64) : Spares n w (w.setTime id time) :=
  ⟨rfl, rfl, fun v => w.addr_setTime v id time, fun v => w.interval_setTime v id time⟩

end Spares

theorem send_spares {node : Nat} (hn : node ≠ n) (s : Controller) (addr : Address) (payload : Payload) {e : SendEnv}
    (herrno : e.errno = none) : Spares n s.world (s.send node addr payload e).world := by
  rcases send_cases s node addr payload e with hsend | ⟨-, hsend⟩ | ⟨code, w, hcode, -, -⟩
  · rw [hsend]
    exact .refl n _
  · rw [hsend]
    exact ⟨rfl, by simp [hn], fun _ => rfl, fun _ => rfl⟩
  · rw [herrno] at hcode
    cases hcode

theorem sentWorld_spares (hn : h.node ≠ n) (s : Controller) (e : SendEnv) : Spares n s.world (s.sentWorld h e) :=
  ⟨rfl, by simp [Controller.sentWorld, Controller.probe, hn], fun _ => rfl, fun _ => rfl⟩

theorem Visited.spares {w : World} {v : Visit Host} (hv : Visited env h s w v) (hn : h.node ≠ n) : Spares n s.world w := by
  have hsent := sentWorld_spares hn s (env h.node).send
  cases hv with
  | throwing => exact spares_set hn _ _ _
  | expired => exact (spares_set hn _ _ _).trans (spares_setBusy n _ _ _)
  | silent => exact .refl n _
  | sent => exact hsent
  | failed => exact hsent.trans (spares_set hn _ _ _)
  | gone => exact (hsent.trans (spares_set hn _ _ _)).trans (spares_setBusy n _ _ _)

theorem visits_spares {l : List Host} (hn : ∀ x ∈ l, x.node ≠ n) (s : Controller) :
    Spares n s.world (visits (visit env) l s).2.1.world ∧ (visits (visit env) l s).2.1.fd = s.fd := by
  refine visits_induct (visit env) (I := fun u => Spares n s.world u.world ∧ u.fd = s.fd) ?_ ⟨.refl n _, rfl⟩
  rintro x hx u ⟨hu, hfd⟩
  exact ⟨hu.trans ((visited env x u).spares (hn x hx)), (visit_fd env x u).trans hfd⟩

/-- The rest of a pass, from the visit of a host on. -/
theorem visits_cons_spares (hn : ∀ x ∈ post, x.node ≠ n) (u : Controller) :
    Spares n (visit env h u).1.world (visits (visit env) (h :: post) u).2.1.world ∧
      ∀ b, (visit env h u).2 = .keep b → b ∈ (visits (visit env) (h :: post) u).1 := by
  rw [visits]
  rcases visit env h u with ⟨v, b | _ | _⟩
  · refine ⟨(visits_spares hn v).1, fun c hc => ?_⟩
    cases hc
    exact List.mem_cons_self
  · exact ⟨(visits_spares hn v).1, fun c hc => by cases hc⟩
  · exact ⟨.refl _ _, fun c hc => by cases hc⟩

/-! ### Other calls -/

theorem afterFirst_spares {v : WorkerId} {e : InsertEnv} (hn : s.nodes ≠ n) (herrno : e.send.errno = none) :
    Spares n s.world (s.afterFirst v e).world := by
  refine (spares_record (e := .inserted s.nodes v) hn _).trans ?_
  exact send_spares hn { s with id := s.id + 1, nodes := s.nodes + 1, world := s.world.record (.inserted s.nodes v) }
    _ _ herrno

theorem insert_spares {v : WorkerId} {e : InsertEnv} (hs : Numbered s.view) (hn : n < s.nodes)
    (herrno : e.send.errno = none) :
    ∃ t, s.step (.insert v e) = some t ∧ Spares n s.world t.world ∧ ∀ h ∈ s.hosts, h ∈ t.hosts := by
  rcases insert_cases s v e with ⟨t, ht, hview, -⟩ | ⟨t, ht, -, u, hu, rfl⟩
  · have hworld : t.world = s.world := congrArg View.world hview
    have hhosts : t.hosts = s.hosts := congrArg View.hosts hview
    exact ⟨t, by rw [Controller.step, ht]; rfl, hworld ▸ .refl n _, fun h hh => hhosts ▸ hh⟩
  · have hview : u.view = s.view := start_view (by rw [hu]; rfl)
    have hworld : u.world = s.world := congrArg View.world hview
    have hhosts : u.hosts = s.hosts := congrArg View.hosts hview
    have hnodes : u.nodes = s.nodes := congrArg View.nodes hview
    rw [← hview] at hs
    rw [← hnodes] at hn
    rw [← hworld, ← hhosts]
    have hfresh : ∀ x ∈ u.hosts, x.node ≠ u.nodes := fun x hx => Nat.ne_of_lt (hs.lt x hx)
    have hne : u.nodes ≠ n := Nat.ne_of_gt hn
    refine ⟨_, by rw [Controller.step, ht]; rfl, ?_, fun h hh => ?_⟩ <;> rw [emplaceBack_eq (by exact hfresh)]
    · exact (spares_setBusy n _ v true).trans
        (afterFirst_spares (s := { u with world := u.world.setBusy v true }) hne herrno)
    · refine List.mem_append_left _ ?_
      unfold Controller.afterFirst
      rwa [send_hosts_of_none herrno]

/-- A pass that drops other hosts only, and does nothing to hosts that it keeps. -/
theorem sweep_spares {pred : Host → World → World × Verdict} (hs : Numbered s.view) (hh : h ∈ s.hosts)
    (hpred : ∀ a u u' v, pred a u = (u', v) →
      (v = .keep ∧ u' = u) ∨ (v = .drop ∧ a ≠ h ∧ (a.node ≠ h.node → Spares h.node u u'))) :
    Spares h.node s.world (sweep pred s.hosts s.world).2.1 ∧ h ∈ (sweep pred s.hosts s.world).1 := by
  have inv := sweep_induct pred (I := fun l u => (∀ x ∈ l, x ∈ s.hosts) ∧ h ∈ l ∧ Spares h.node s.world u)
    ?_ ?_ ?_ ⟨fun x hx => hx, hh, .refl _ s.world⟩
  · exact ⟨inv.2.2, inv.2.1⟩
  · intro pre a post u u' hI hp
    rcases hpred a u u' _ hp with ⟨-, rfl⟩ | ⟨hv, -⟩
    · exact hI
    · cases hv
  · rintro pre a post u u' ⟨hmem, hhl, hspares⟩ hp
    rcases hpred a u u' _ hp with ⟨hv, -⟩ | ⟨-, hne, hu⟩
    · cases hv
    · have hnode : a.node ≠ h.node := fun hnode =>
        hne (hs.eq_of_node (hmem a (by simp)) hh hnode)
      refine ⟨fun x hx => hmem x (by simp at hx ⊢; tauto), ?_, hspares.trans (hu hnode)⟩
      simp only [List.mem_append, List.mem_cons] at hhl ⊢
      exact hhl.imp_right fun hhl => hhl.resolve_left fun he => hne he.symm
  · intro pre a post u u' hI hp
    rcases hpred a u u' _ hp with ⟨hv, -⟩ | ⟨hv, -⟩ <;> cases hv

theorem remove_spares {v : WorkerId} (hs : Numbered s.view) (hh : h ∈ s.hosts) (hv : v ≠ h.worker) :
    Spares h.node s.world (s.remove v).world ∧ h ∈ (s.remove v).hosts := by
  have hpass : Spares h.node s.world (sweep (removePred v) s.hosts s.world).2.1 ∧
      h ∈ (sweep (removePred v) s.hosts s.world).1 := sweep_spares hs hh fun a u u' d hp => by
    rcases removePred_cases hp with ⟨hd, -, rfl⟩ | ⟨hd, hw, rfl⟩
    · exact Or.inl ⟨hd, rfl⟩
    · refine Or.inr ⟨hd, fun he => hv ?_, fun hne => ?_⟩
      · rw [← hw, he]
      · exact (spares_setBusy _ u a.worker false).trans (spares_record (e := .removed a.node a.worker) hne _)
  have hview : (s.remove v).view =
      ⟨(sweep (removePred v) s.hosts s.world).1, (sweep (removePred v) s.hosts s.world).2.1, s.nodes⟩ := by
    unfold Controller.remove
    rw [view_stopIfEmpty]
    rfl
  have hworld : (s.remove v).world = _ := congrArg View.world hview
  have hhosts : (s.remove v).hosts = _ := congrArg View.hosts hview
  rwa [hworld, hhosts]

theorem handleEvent_spares {oninput : Bool} {recv : Recv} {now : Nat → Timespec} (hs : Numbered s.view)
    (hh : h ∈ s.hosts) (hids : oninput = true → ∀ packet addr, accepted s.pid recv = some (packet, addr) →
      packet.payload.id ≠ h.id) :
    Spares h.node s.world (s.handleEvent oninput recv now).world ∧ h ∈ (s.handleEvent oninput recv now).hosts := by
  unfold Controller.handleEvent
  split
  · rename_i hon
    split
    · exact ⟨.refl _ _, hh⟩
    · rename_i packet addr hacc
      refine sweep_spares hs hh fun a u u' d hp => ?_
      rcases responsePred_cases hp with hkeep | ⟨hd, hid, heffect⟩
      · exact Or.inl hkeep
      · refine Or.inr ⟨hd, fun he => hids hon packet addr hacc (he ▸ hid), fun hne => ?_⟩
        rcases heffect with ⟨time, rfl⟩ | ⟨r, -, rfl⟩ | ⟨-, rfl⟩
        · exact ((spares_setTime _ u _ time).trans (spares_set hne _ _ _)).trans (spares_setBusy _ _ _ _)
        · exact (spares_set hne _ _ _).trans (spares_setBusy _ _ _ _)
        · exact spares_setBusy _ _ _ _
  · exact ⟨.refl _ _, hh⟩

end UdjatNetwork.Icmp
