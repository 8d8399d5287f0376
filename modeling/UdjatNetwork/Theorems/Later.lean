import UdjatNetwork.Theorems.Spares

/-! # What is left of a pass over the hosts

What a pass adds to the results and packets of the hosts, and who is told when a packet of a host fails. -/

namespace UdjatNetwork.Icmp
open Pass Machine Controller

variable {s t u : Controller} {h : Host} {env : Nat → TimerEnv} {done rest : List Host}

/-! ### What comes later -/

theorem results_set {r : Response} {source : Address} {n : Nat}
    (hlog : t.world.log = u.world.log ++ [.set h.node h.worker r source]) :
    t.results n = u.results n ++ if h.node = n then [.set h.node h.worker r source] else [] := by
  rw [Controller.results, hlog, Controller.results]
  split_ifs with hn
  · rw [filter_node_append_eq (e := .set h.node h.worker r source) hn, List.filter_append]
    rfl
  · rw [filter_node_append_ne (e := .set h.node h.worker r source) hn, List.append_nil]

/-- What a pass does from one state to another: results and packets are added, a host leaves with a result, and no
    packet is sent for a host that is not in the list. -/
structure Later (u t : Controller) : Prop where
  results : ∀ n, u.results n <+: t.results n
  probes : ∀ n, u.probes n <+: t.probes n
  left : ∀ n ∈ u.nodeList, n ∉ t.nodeList → (u.results n).length < (t.results n).length
  absent : ∀ n, n ∉ u.nodeList → n ∉ t.nodeList ∧ t.probes n = u.probes n

namespace Later

theorem refl (u : Controller) : Later u u :=
  ⟨fun _ => List.prefix_refl _, fun _ => List.prefix_refl _, fun _ hn hn' => absurd hn hn', fun _ hn => ⟨hn, rfl⟩⟩

theorem trans {v : Controller} (h : Later u t) (h' : Later t v) : Later u v where
  results := fun n => (h.results n).trans (h'.results n)
  probes := fun n => (h.probes n).trans (h'.probes n)
  left := fun n hn hn' => by
    by_cases ht : n ∈ t.nodeList
    · exact Nat.lt_of_le_of_lt (h.results n).length_le (h'.left n ht hn')
    · exact Nat.lt_of_lt_of_le (h.left n hn ht) (h'.results n).length_le
  absent := fun n hn => by
    obtain ⟨ht, hprobes⟩ := h.absent n hn
    obtain ⟨hv, hprobes'⟩ := h'.absent n ht
    exact ⟨hv, hprobes'.trans hprobes⟩

/-- A result for a host, which may leave the list with it. -/
theorem of_set {r : Response} {source : Address} (hsub : ∀ n ∈ t.nodeList, n ∈ u.nodeList)
    (hleft : ∀ n ∈ u.nodeList, n ∉ t.nodeList → n = h.node)
    (hlog : t.world.log = u.world.log ++ [.set h.node h.worker r source]) (hsent : t.world.sent = u.world.sent) :
    Later u t := by
  have hprobes : ∀ n, t.probes n = u.probes n := fun n => by rw [Controller.probes, hsent, Controller.probes]
  refine ⟨fun n => ?_, fun n => hprobes n ▸ List.prefix_refl _, fun n hn hn' => ?_,
    fun n hn => ⟨fun hn' => hn (hsub n hn'), hprobes n⟩⟩
  · rw [results_set hlog]
    exact List.prefix_append _ _
  · rw [results_set hlog, if_pos (hleft n hn hn').symm]
    simp

theorem of_sent {p : Sent} (hp : p.node ∈ u.nodeList) (hnodes : t.nodeList = u.nodeList)
    (hlog : t.world.log = u.world.log) (hsent : t.world.sent = u.world.sent ++ [p]) : Later u t := by
  have hprobes : ∀ n, t.probes n = u.probes n ++ if p.node = n then [p] else [] := fun n => by
    rw [Controller.probes, hsent, Controller.probes]
    split_ifs with hn <;> simp [hn]
  refine ⟨fun n => ?_, fun n => ?_, fun n hn hn' => absurd (hnodes ▸ hn) hn', fun n hn => ⟨hnodes ▸ hn, ?_⟩⟩
  · have hresults : t.results n = u.results n := by rw [Controller.results, hlog, Controller.results]
    exact hresults ▸ List.prefix_refl _
  · rw [hprobes]
    exact List.prefix_append _ _
  · have hne : p.node ≠ n := fun he => hn (he ▸ hp)
    rw [hprobes, if_neg hne, List.append_nil]

/-- A change that leaves nodes, results and packets as they are. -/
theorem of_same (hnodes : t.nodeList = u.nodeList) (hworld : t.world = u.world) : Later u t := by
  have hresults : ∀ n, t.results n = u.results n := fun n => by rw [Controller.results, hworld, Controller.results]
  have hprobes : ∀ n, t.probes n = u.probes n := fun n => by rw [Controller.probes, hworld, Controller.probes]
  exact ⟨fun n => hresults n ▸ List.prefix_refl _, fun n => hprobes n ▸ List.prefix_refl _,
    fun n hn hn' => absurd (hnodes ▸ hn) hn', fun n hn => ⟨hnodes ▸ hn, hprobes n⟩⟩

theorem of_errorSweep (code : Nat) (payload : Payload) (throws : Nat → Bool) (hosts : List Host) (w : World) (s : Controller) :
    Later { s with hosts, world := w }
      { s with hosts := (sweep (errorPred code payload throws) hosts w).1,
               world := (sweep (errorPred code payload throws) hosts w).2.1 } := by
  refine sweep_induct _ (I := fun l w' => Later { s with hosts, world := w } { s with hosts := l, world := w' })
    ?_ ?_ ?_ (refl _) <;> intro pre a post w₁ w₂ hI hp
  · rcases errorPred_cases hp with ⟨-, rfl⟩ | ⟨hv, -⟩ | ⟨hv, -⟩
    · exact hI
    · cases hv
    · cases hv
  · rcases errorPred_cases hp with ⟨hv, -⟩ | ⟨-, -, -, rfl⟩ | ⟨hv, -⟩
    · cases hv
    · refine hI.trans (of_set (h := a) (fun n hn => ?_) (fun n hn hn' => ?_) rfl rfl)
      · simp only [Controller.nodeList, List.map_append, List.map_cons, List.mem_append, List.mem_cons] at hn ⊢
        tauto
      · simp only [Controller.nodeList, List.map_append, List.map_cons, List.mem_append, List.mem_cons] at hn hn'
        tauto
    · cases hv
  · rcases errorPred_cases hp with ⟨hv, -⟩ | ⟨hv, -⟩ | ⟨-, -, rfl⟩
    · cases hv
    · cases hv
    · exact hI.trans (of_set (h := a) (fun n hn => hn) (fun n hn hn' => absurd hn hn') rfl rfl)

theorem of_send {node : Nat} (hnode : node ∈ s.nodeList) (addr : Address) (payload : Payload) (env : SendEnv) :
    Later s (s.send node addr payload env) := by
  rcases send_cases s node addr payload env with hsend | ⟨-, hsend⟩ | ⟨code, w, -, rfl, hsend⟩ <;> rw [hsend]
  · exact refl s
  · exact of_sent hnode rfl rfl rfl
  · have hsent : Later s { s with
        seq := s.seq + 1, world := { s.world with sent := s.world.sent ++ [⟨node, s.seq + 1, payload⟩] } } :=
      of_sent hnode rfl rfl rfl
    exact hsent.trans (of_errorSweep _ _ _ _ _ { s with seq := s.seq + 1 })

theorem of_hostSend (hh : h ∈ s.hosts) (env : SendEnv) : Later s (s.hostSend h env).1 := by
  have hnodes : ∀ x : Host, x.node = h.node → (s.store x).nodeList = s.nodeList := fun x hx => by
    simp only [Controller.nodeList, Controller.store, List.map_map]
    refine List.map_congr_left fun y _ => ?_
    simp only [Function.comp_apply]
    split_ifs with hy
    · exact hy.symm
    · rfl
  have hmem : ∀ x : Host, x.node = h.node → h.node ∈ (s.store x).nodeList := fun x hx => by
    rw [hnodes x hx]
    exact List.mem_map.mpr ⟨h, hh, rfl⟩
  unfold Controller.hostSend
  refine (of_same (hnodes _ ?_) rfl).trans (of_send (hmem _ ?_) _ _ _)
  · rfl
  · rfl

/-- A call of the predicate of the pass, with the unlinking after it. -/
theorem of_timerPred {n : Nat} {v : Verdict} (hp : timerPred env n s = (t, v)) :
    Later s (if v = .drop then unlink n t else t) := by
  rcases timerPred_cases hp with ⟨rfl, rfl⟩ | ⟨h, hh, rfl, ⟨rfl, rfl⟩ | ⟨rfl, -, rfl⟩ | ⟨rfl, rfl⟩⟩
  · exact refl _
  · refine of_set (h := h) (fun n hn => ?_) (fun n hn hn' => ?_) rfl rfl
    · simp only [if_true, Controller.nodeList, unlink, List.mem_map] at hn ⊢
      obtain ⟨x, hx, rfl⟩ := hn
      exact ⟨x, List.mem_of_mem_filter hx, rfl⟩
    · by_contra hne
      obtain ⟨x, hx, rfl⟩ := List.mem_map.mp hn
      exact hn' (List.mem_map.mpr ⟨x, List.mem_filter.mpr ⟨hx, by simpa using hne⟩, rfl⟩)
  · exact of_set (h := h) (fun n hn => hn) (fun n hn hn' => absurd hn hn') rfl rfl
  · exact of_hostSend hh _

theorem of_removeIf {ks : List Nat} (ht : (removeIf nodeList unlink (timerPred env) ks s).state? = some t) : Later s t := by
  refine removeIf_induct (I := Later s) ?_ ?_ ?_ (refl s) ht <;> intro k u u' hI _ hp
  · exact hI.trans (of_timerPred hp)
  · exact hI.trans (of_timerPred hp)
  · exact hI.trans (of_timerPred hp)

end Later

/-! ### Who is told -/

/-- The worker of the host was told that there is no network to it. -/
def Told (h : Host) (w w' : World) : Prop :=
  ∃ mid, w.log ++ mid ++ [.set h.node h.worker .networkUnreachable .empty] <+: w'.log

section Sweep
variable {payload : Payload} {throws : Nat → Bool} {w : World}

theorem errorSweep_log (l : List Host) (w : World) :
    w.log <+: (sweep (errorPred ENETUNREACH payload throws) l w).2.1.log := by
  refine sweep_induct _ (I := fun _ (w' : World) => w.log <+: w'.log) ?_ ?_ ?_ (List.prefix_refl _) <;>
    intro pre a post w₁ w₂ hI hp
  · rcases errorPred_cases hp with ⟨-, rfl⟩ | ⟨hv, -⟩ | ⟨hv, -⟩
    · exact hI
    · cases hv
    · cases hv
  · rcases errorPred_cases hp with ⟨hv, -⟩ | ⟨-, -, -, rfl⟩ | ⟨hv, -⟩
    · cases hv
    · exact hI.trans (List.prefix_append _ _)
    · cases hv
  · rcases errorPred_cases hp with ⟨hv, -⟩ | ⟨hv, -⟩ | ⟨-, -, rfl⟩
    · cases hv
    · cases hv
    · exact hI.trans (List.prefix_append _ _)

/-- The first host with the identifier is told. -/
theorem told_first {a : Host} (hid : payload.id = a.id) (l : List Host) (w : World) :
    Told a w (sweep (errorPred ENETUNREACH payload throws) (a :: l) w).2.1 := by
  rw [sweep, errorPred_eq, if_pos hid]
  cases ht : throws a.node with
  | true => exact ⟨[], by simp⟩
  | false =>
    refine ⟨[], ?_⟩
    rw [List.append_nil]
    exact errorSweep_log l ((w.set a .networkUnreachable .empty).setBusy a.worker false)

theorem sweep_other {a : Host} (hid : payload.id ≠ a.id) (l : List Host) (w : World) :
    sweep (errorPred ENETUNREACH payload throws) (a :: l) w =
      (a :: (sweep (errorPred ENETUNREACH payload throws) l w).1, (sweep (errorPred ENETUNREACH payload throws) l w).2) := by
  rw [sweep, errorPred_eq, if_neg hid]

/-- With a host of the identifier in the list, some host is told. -/
theorem told_of_mem {l : List Host} (hl : ∃ x ∈ l, x.id = payload.id) (w : World) :
    ∃ x ∈ l, Told x w (sweep (errorPred ENETUNREACH payload throws) l w).2.1 := by
  induction l with
  | nil =>
    obtain ⟨x, hx, -⟩ := hl
    cases hx
  | cons a l ih =>
    by_cases hid : payload.id = a.id
    · exact ⟨a, List.mem_cons_self, told_first hid l w⟩
    · obtain ⟨x, hx, hxid⟩ := hl
      have hxl : x ∈ l := (List.mem_cons.mp hx).resolve_left fun he => hid (he ▸ hxid).symm
      obtain ⟨y, hy, htold⟩ := ih ⟨x, hxl, hxid⟩
      rw [sweep_other hid]
      exact ⟨y, List.mem_cons_of_mem a hy, htold⟩

/-- When another host has the identifier, or the worker of the host throws, a host is told that should not, or stays. -/
theorem told_of_not_alone {pre post : List Host} {a : Host} (hid : payload.id = a.id)
    (h : throws a.node = true ∨ ∃ x ∈ pre ++ post, x.id = a.id) (w : World) :
    ∃ x ∈ pre ++ a :: post, Told x w (sweep (errorPred ENETUNREACH payload throws) (pre ++ a :: post) w).2.1 ∧
      (x ∈ pre ++ post ∨ x.node ∈ (sweep (errorPred ENETUNREACH payload throws) (pre ++ a :: post) w).1.map (·.node)) := by
  induction pre with
  | nil =>
    rw [List.nil_append] at h ⊢
    cases ht : throws a.node with
    | true =>
      refine ⟨a, List.mem_cons_self, told_first hid post w, Or.inr ?_⟩
      rw [sweep, errorPred_eq, if_pos hid, if_pos ht]
      exact List.mem_cons_self
    | false =>
      obtain ⟨x, hx, hxid⟩ := h.resolve_left (by simp [ht])
      let w₁ := (w.set a .networkUnreachable .empty).setBusy a.worker false
      obtain ⟨y, hy, mid, htold⟩ : ∃ y ∈ post, Told y w₁ (sweep (errorPred ENETUNREACH payload throws) post w₁).2.1 :=
        told_of_mem ⟨x, hx, hxid.trans hid.symm⟩ w₁
      refine ⟨y, List.mem_cons_of_mem a hy, ⟨[.set a.node a.worker .networkUnreachable .empty] ++ mid, ?_⟩, Or.inl hy⟩
      rw [sweep, errorPred_eq, if_pos hid, if_neg (by simp [ht]), ← List.append_assoc]
      exact htold
  | cons b pre ih =>
    rw [List.cons_append]
    by_cases hb : payload.id = b.id
    · exact ⟨b, List.mem_cons_self, told_first hb _ w, Or.inl List.mem_cons_self⟩
    · have h' : throws a.node = true ∨ ∃ x ∈ pre ++ post, x.id = a.id := by
        rcases h with hthrows | ⟨x, hx, hxid⟩
        · exact Or.inl hthrows
        · exact Or.inr ⟨x, (List.mem_cons.mp hx).resolve_left fun he => hb (hid.trans (he ▸ hxid).symm), hxid⟩
      obtain ⟨y, hy, htold, hyl⟩ := ih h'
      rw [sweep_other hb]
      exact ⟨y, List.mem_cons_of_mem b hy, htold, hyl.imp (List.mem_cons_of_mem b) (List.mem_cons_of_mem _)⟩

end Sweep

end UdjatNetwork.Icmp
