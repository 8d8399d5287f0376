import UdjatNetwork.Icmp.Controller
import Mathlib.Logic.Relation
import Mathlib.Data.List.Nodup

/-! # What may happen to the hosts of a controller

An abstract account of the host list: a host is inserted for a worker that is not busy, sends packets, and
leaves the list with a result for its worker or because the worker is removed. Two moves are faults: a
host that leaves without a result (`lossy`), and a result whose worker throws, after which the host stays
(`throwing`). Every call of the controller is a sequence of such moves (`Theorems/ControllerMoves.lean`);
what the moves keep is proved here. -/

namespace UdjatNetwork.Icmp

/-- What the moves see of a controller. -/
structure View where
  hosts : List Host
  world : World
  nodes : Nat

inductive Move (lossy throwing : Prop) : View → View → Prop
  | count {pre post : List Host} {h : Host} {w : World} {n : Nat} (next : Int) (packets : UInt16) :
    Move lossy throwing ⟨pre ++ h :: post, w, n⟩ ⟨pre ++ { h with next, packets } :: post, w, n⟩
  | sent {hosts : List Host} {w : World} {n : Nat} (sent : List Sent) :
    Move lossy throwing ⟨hosts, w, n⟩ ⟨hosts, { w with sent }, n⟩
  | time {hosts : List Host} {w : World} {n : Nat} (v : WorkerId) (t : UInt64) :
    Move lossy throwing ⟨hosts, w, n⟩ ⟨hosts, w.setTime v t, n⟩
  | address {hosts : List Host} {w : World} {n : Nat} (v : WorkerId) (a : Address) :
    Move lossy throwing ⟨hosts, w, n⟩ ⟨hosts, w.setAddr v a, n⟩
  | answer {pre post : List Host} {h : Host} {w : World} {n : Nat} {r : Response} (source : Address)
      (hr : r ≠ .invalid) :
    Move lossy throwing ⟨pre ++ h :: post, w, n⟩
      ⟨pre ++ post, (w.set h r source).setBusy h.worker false, n⟩
  | fail {pre post : List Host} {h : Host} {w : World} {n : Nat} (r : Response) (source : Address)
      (ht : throwing) :
    Move lossy throwing ⟨pre ++ h :: post, w, n⟩ ⟨pre ++ h :: post, w.set h r source, n⟩
  | lose {pre post : List Host} {h : Host} {w : World} {n : Nat} (hl : lossy) :
    Move lossy throwing ⟨pre ++ h :: post, w, n⟩ ⟨pre ++ post, w.setBusy h.worker false, n⟩
  | remove {pre post : List Host} {h : Host} {w : World} {n : Nat} :
    Move lossy throwing ⟨pre ++ h :: post, w, n⟩
      ⟨pre ++ post, (w.setBusy h.worker false).record (.removed h.node h.worker), n⟩
  | insert {hosts : List Host} {w : World} {h : Host} {n : Nat} {v : WorkerId} (hn : h.node = n)
      (hv : h.worker = v) (hb : w.busy v = false) :
    Move lossy throwing ⟨hosts, w, n⟩
      ⟨hosts ++ [h], (w.setBusy v true).record (.inserted n v), n + 1⟩

abbrev Moves (lossy throwing : Prop) : View → View → Prop := Relation.ReflTransGen (Move lossy throwing)

namespace Moves
variable {lossy throwing lossy' throwing' : Prop} {u v : View}

theorem mono (hl : lossy → lossy') (ht : throwing → throwing') (h : Moves lossy throwing u v) :
    Moves lossy' throwing' u v := by
  refine Relation.ReflTransGen.mono (fun a b m => ?_) _ _ h
  cases m with
  | count next packets => exact .count next packets
  | sent sent => exact .sent sent
  | time w t => exact .time w t
  | address w a => exact .address w a
  | answer source hr => exact .answer source hr
  | fail r source h => exact .fail r source (ht h)
  | lose h => exact .lose (hl h)
  | remove => exact .remove
  | insert hn hv hb => exact .insert hn hv hb

/-- A property that every move keeps holds after a sequence of moves. -/
theorem induct {I : View → Prop} (hstep : ∀ u v, I u → Move lossy throwing u v → I v)
    (h : Moves lossy throwing u v) (hu : I u) : I v := by
  induction h with
  | refl => exact hu
  | tail _ m ih => exact hstep _ _ ih m

end Moves

/-! ## Nodes -/

/-- The nodes of the list are distinct, and younger nodes have greater numbers. -/
structure Numbered (v : View) : Prop where
  nodup : (v.hosts.map (·.node)).Nodup
  lt : ∀ h ∈ v.hosts, h.node < v.nodes

variable {lossy throwing : Prop} {u v : View}

theorem nodup_map_middle {α β : Type} {f : α → β} {pre post : List α} {a : α}
    (h : ((pre ++ a :: post).map f).Nodup) :
    ((pre ++ post).map f).Nodup ∧ f a ∉ (pre ++ post).map f := by
  have hp : (pre ++ a :: post).Perm (a :: (pre ++ post)) := List.perm_middle
  have := (hp.map f).nodup_iff.mp h
  rw [List.map_cons, List.nodup_cons] at this
  exact ⟨this.2, this.1⟩

section Middle
variable {pre post : List Host} {h : Host} (hn : ((pre ++ h :: post).map (·.node)).Nodup)
include hn

theorem node_ne_of_middle : (∀ x ∈ pre, x.node ≠ h.node) ∧ ∀ x ∈ post, x.node ≠ h.node := by
  obtain ⟨-, hnot⟩ := nodup_map_middle hn
  have other : ∀ x ∈ pre ++ post, x.node ≠ h.node := fun x hx hxn => hnot (List.mem_map.mpr ⟨x, hx, hxn⟩)
  exact ⟨fun x hx => other x (List.mem_append_left _ hx), fun x hx => other x (List.mem_append_right _ hx)⟩

theorem filter_node_ne : (pre ++ h :: post).filter (·.node ≠ h.node) = pre ++ post := by
  obtain ⟨hpre, hpost⟩ := node_ne_of_middle hn
  rw [List.filter_append, List.filter_cons_of_neg (by simp), List.filter_eq_self.mpr fun x hx => by simpa using hpre x hx,
    List.filter_eq_self.mpr fun x hx => by simpa using hpost x hx]

theorem filter_node_eq : (pre ++ h :: post).filter (fun x => decide (x.node = h.node)) = [h] := by
  obtain ⟨hpre, hpost⟩ := node_ne_of_middle hn
  rw [List.filter_append, List.filter_cons_of_pos (by simp), List.filter_eq_nil_iff.mpr fun x hx => by simpa using hpre x hx,
    List.filter_eq_nil_iff.mpr fun x hx => by simpa using hpost x hx, List.nil_append]

end Middle

theorem Numbered.eq_of_node (hu : Numbered u) {x h : Host} (hx : x ∈ u.hosts) (hh : h ∈ u.hosts)
    (hn : x.node = h.node) : x = h :=
  List.inj_on_of_nodup_map hu.nodup hx hh hn

theorem Numbered.move (hu : Numbered u) (m : Move lossy throwing u v) : Numbered v := by
  have drop : ∀ {pre post : List Host} {h : Host} {w w' : World} {n : Nat},
      Numbered ⟨pre ++ h :: post, w, n⟩ → Numbered ⟨pre ++ post, w', n⟩ := fun hu =>
    ⟨(nodup_map_middle hu.nodup).1, fun x hx => hu.lt x (by simp at hx ⊢; tauto)⟩
  cases m with
  | @count pre post h w n next packets =>
    refine ⟨by simpa using hu.nodup, fun x hx => ?_⟩
    simp only [List.mem_append, List.mem_cons] at hx
    rcases hx with hx | rfl | hx
    · exact hu.lt x (by simp [hx])
    · exact hu.lt h (List.mem_append_right pre List.mem_cons_self)
    · exact hu.lt x (by simp [hx])
  | sent | time | address | fail => exact ⟨hu.nodup, hu.lt⟩
  | answer | lose | remove => exact drop hu
  | @insert hosts w h n x hn hv hb =>
    subst hn
    have hlt := hu.lt
    refine ⟨?_, fun x hx => ?_⟩
    · rw [List.map_append, List.map_singleton]
      refine List.Nodup.append hu.nodup (List.nodup_singleton _) fun k hk hk' => ?_
      obtain ⟨x, hx, rfl⟩ := List.mem_map.mp hk
      exact absurd (List.mem_singleton.mp hk') (Nat.ne_of_lt (hlt x hx))
    · rcases List.mem_append.mp hx with hx | hx
      · exact Nat.lt_succ_of_lt (hlt x hx)
      · rw [List.mem_singleton.mp hx]
        exact Nat.lt_succ_self _

theorem Numbered.moves (hu : Numbered u) (h : Moves lossy throwing u v) : Numbered v :=
  h.induct (fun _ _ hu m => hu.move m) hu

/-! ## Busy flags -/

/-- No worker has two hosts, and the busy workers are those that have one. -/
structure Flags (v : View) : Prop where
  nodup : (v.hosts.map (·.worker)).Nodup
  busy : ∀ w, v.world.busy w = true ↔ w ∈ v.hosts.map (·.worker)

theorem Flags.drop {pre post : List Host} {h : Host} {w w' : World} {n : Nat}
    (hu : Flags ⟨pre ++ h :: post, w, n⟩) (hw : ∀ x, w'.busy x = if x = h.worker then false else w.busy x) :
    Flags ⟨pre ++ post, w', n⟩ := by
  obtain ⟨hnodup, hnot⟩ := nodup_map_middle hu.nodup
  refine ⟨hnodup, fun x => ?_⟩
  have hb : w.busy x = true ↔ x ∈ (pre ++ h :: post).map (·.worker) := hu.busy x
  change w'.busy x = true ↔ x ∈ (pre ++ post).map (·.worker)
  rw [hw]
  by_cases hx : x = h.worker
  · subst hx
    simpa using hnot
  · rw [if_neg hx, hb]
    simp [hx]

theorem Flags.move (hu : Flags u) (m : Move lossy throwing u v) : Flags v := by
  cases m with
  | count next packets => exact ⟨by simpa using hu.nodup, fun w => by simpa using hu.busy w⟩
  | sent sent => exact ⟨hu.nodup, fun w => hu.busy w⟩
  | time x t => exact ⟨hu.nodup, fun w => by simpa using hu.busy w⟩
  | address x a => exact ⟨hu.nodup, fun w => by simpa using hu.busy w⟩
  | answer source hr => exact hu.drop fun x => by simp
  | fail r source ht => exact ⟨hu.nodup, fun w => hu.busy w⟩
  | lose hl => exact hu.drop fun x => by simp
  | remove => exact hu.drop fun x => by simp
  | @insert hosts w h n x hn hv hb =>
    subst hv
    have hnot : h.worker ∉ hosts.map (·.worker) := fun hmem => by
      rw [(hu.busy h.worker).mpr hmem] at hb
      cases hb
    refine ⟨?_, fun x => ?_⟩
    · rw [List.map_append, List.map_singleton]
      exact List.Nodup.append hu.nodup (List.nodup_singleton _) fun x hx hx' =>
        hnot (List.mem_singleton.mp hx' ▸ hx)
    · have hx : w.busy x = true ↔ x ∈ hosts.map (·.worker) := hu.busy x
      by_cases he : x = h.worker <;> simp [he, hx]

theorem Flags.moves (hu : Flags u) (h : Moves lossy throwing u v) : Flags v :=
  h.induct (fun _ _ hu m => hu.move m) hu

/-! ## The log -/

theorem Move.log_grows (m : Move lossy throwing u v) : u.world.log <+: v.world.log := by
  cases m with
  | count | sent | time | address | lose => exact List.prefix_refl _
  | answer | fail | remove | insert => exact List.prefix_append _ _

theorem Moves.log_grows (h : Moves lossy throwing u v) : u.world.log <+: v.world.log :=
  h.induct (I := fun v => u.world.log <+: v.world.log) (fun _ _ hu m => hu.trans m.log_grows) (List.prefix_refl _)

/-- Every event is one of a node that was given to a host. -/
def Logged (v : View) : Prop := ∀ e ∈ v.world.log, e.node < v.nodes

theorem Logged.append {log : List Event} {n k : Nat} {e : Event} (hlog : ∀ e ∈ log, e.node < n) (he : e.node < k)
    (hk : n ≤ k) : ∀ x ∈ log ++ [e], x.node < k := by
  intro x hx
  rcases List.mem_append.mp hx with hx | hx
  · exact Nat.lt_of_lt_of_le (hlog x hx) hk
  · rw [List.mem_singleton.mp hx]
    exact he

theorem Logged.move (hn : Numbered u) (hu : Logged u) (m : Move lossy throwing u v) : Logged v := by
  cases m with
  | count | sent | time | address | lose => exact hu
  | @answer pre post h | @fail pre post h | @remove pre post h =>
    exact Logged.append hu (hn.lt h (List.mem_append_right pre List.mem_cons_self)) (Nat.le_refl _)
  | insert hnode => exact Logged.append hu (Nat.lt_succ_self _) (Nat.le_succ _)

theorem Logged.moves (hn : Numbered u) (hu : Logged u) (h : Moves lossy throwing u v) : Logged v :=
  (h.induct (I := fun v => Numbered v ∧ Logged v) (fun _ _ hI m => ⟨hI.1.move m, hI.2.move hI.1 m⟩) ⟨hn, hu⟩).2

end UdjatNetwork.Icmp
