import UdjatNetwork.Ip.State

/-! # Addresses in the networks of the machine

A state for a word such as `local` goes through the interfaces, turns the mask of each into a number of bits,
and that number into a mask again. -/

namespace UdjatNetwork.Ip
open State

/-- The address is in the network of one of the interfaces. -/
def InNetwork (ifaces : List Interface) (addr : BitVec 32) : Prop :=
  ∃ iface ∈ ifaces, ∃ i m, iface.addr = some (.inet i) ∧ iface.netmask = some m ∧ addr &&& m = i &&& m

/-- In the order of the network, the mask begins with ones, and ends with zeros. -/
def Contiguous (m : BitVec 32) : Prop := ∃ n ≤ 32, htonl m = BitVec.allOnes 32 <<< (32 - n)

def ContiguousMasks (ifaces : List Interface) : Prop :=
  ∀ iface ∈ ifaces, ∀ i m, iface.addr = some (.inet i) → iface.netmask = some m → Contiguous m

/-- The state is for a word of the table, one for addresses outside when `revert` is set. -/
def Internal (revert : Bool) (node : StateNode) : Prop :=
  ∃ l ∈ locals, l.2 = revert ∧ strcasecmp (node.subnet.getD "") l.1

/-- The state after some comparisons, each with the interfaces of its time. -/
def State.compares (st : State) (calls : List (Option (List Interface) × Address)) : State :=
  calls.foldl (fun st c => (st.compare c.1 c.2).1) st

/-! ### Masks -/

theorem countBits_allOnes : ∀ n ≤ 32, countBits 64 ((BitVec.allOnes 32 <<< (32 - n)).setWidth 64) = n := by decide

theorem netmask_eq : ∀ n ≤ 32, netmask n = BitVec.allOnes 32 <<< (32 - n) := by decide

theorem netmask_countBits {m : BitVec 32} (h : Contiguous m) :
    htonl (netmask (countBits 64 ((htonl m).setWidth 64))) = m := by
  obtain ⟨n, hn, hm⟩ := h
  rw [hm, countBits_allOnes n hn, netmask_eq n hn, ← hm, htonl_htonl]

theorem contains_iff {i m : BitVec 32} (h : Contiguous m) (addr : BitVec 32) :
    ({ addr := .inet i, bits := countBits 64 ((htonl m).setWidth 64) } : SubNet).contains addr = true ↔
      addr &&& m = i &&& m := by
  rw [SubNet.contains_iff_and, netmask_countBits h]

theorem find_iff {ifaces : List Interface} (h : ContiguousMasks ifaces) (addr : BitVec 32) :
    ((SubNet.ofInterfaces ifaces).find? (·.contains addr)).isSome = true ↔ InNetwork ifaces addr := by
  rw [List.find?_isSome]
  constructor
  · rintro ⟨sn, hsn, hc⟩
    obtain ⟨iface, hiface, hof⟩ := List.mem_filterMap.mp hsn
    split at hof
    · rename_i i m hi hm
      cases hof
      exact ⟨iface, hiface, i, m, hi, hm, (contains_iff (h iface hiface i m hi hm) addr).mp hc⟩
    · cases hof
  · rintro ⟨iface, hiface, i, m, hi, hm, he⟩
    refine ⟨_, List.mem_filterMap.mpr ⟨iface, hiface, ?_⟩, (contains_iff (h iface hiface i m hi hm) addr).mpr he⟩
    simp only [hi, hm]

/-! ### States -/

theorem ofNode_internal (lib : Libudjat) {revert : Bool} {node : StateNode} (h : Internal revert node) :
    State.ofNode lib node = some { level := node.level, kind := .internal revert } := by
  obtain ⟨l, hl, rfl, hname⟩ := h
  have hfind : ∀ l ∈ locals, locals.find? (fun k => strcasecmp l.1 k.1) = some l := by decide
  unfold State.ofNode
  dsimp only
  rw [strcasecmp_congr hname, hfind l hl]

theorem compare_kind (st : State) (ifaces : Option (List Interface)) (addr : Address) :
    (st.compare ifaces addr).1.kind = st.kind := by
  unfold State.compare
  cases addr with
  | inet a =>
    simp only [State.compareInet]
    split
    · rfl
    · split
      · rfl
      · split <;> rfl
  | empty | inet6 | other => rfl

theorem compares_kind (st : State) (calls : List (Option (List Interface) × Address)) :
    (st.compares calls).kind = st.kind := by
  induction calls generalizing st with
  | nil => rfl
  | cons c calls ih => exact (ih _).trans (compare_kind st c.1 c.2)

theorem compare_internal {st : State} {revert : Bool} (hk : st.kind = .internal revert) (ifaces : List Interface)
    (addr : BitVec 32) :
    (st.compare (some ifaces) (.inet addr)).2 =
      some (revert != ((SubNet.ofInterfaces ifaces).find? (·.contains addr)).isSome) := by
  simp only [State.compare, State.compareInet, hk]
  cases (SubNet.ofInterfaces ifaces).find? (·.contains addr) <;> cases revert <;> rfl

/-- Whatever they were compared with before, the states for a word such as `local`, and for one such as `remote`,
    match the addresses in the networks of the machine, and all others. --/
theorem local_matches_iff (lib : Libudjat) {l r : StateNode} (hl : Internal false l) (hr : Internal true r)
    (before before' : List (Option (List Interface) × Address)) {ifaces : List Interface}
    (hm : ContiguousMasks ifaces) (addr : BitVec 32) :
    ∃ L R, State.ofNode lib l = some L ∧ State.ofNode lib r = some R ∧
      ∃ b, ((L.compares before).compare (some ifaces) (.inet addr)).2 = some b ∧
        ((R.compares before').compare (some ifaces) (.inet addr)).2 = some (!b) ∧ (b = true ↔ InNetwork ifaces addr) := by
  refine ⟨_, _, ofNode_internal lib hl, ofNode_internal lib hr, _, compare_internal (compares_kind _ _) ifaces addr,
    (compare_internal (compares_kind _ _) ifaces addr).trans (by rw [Bool.true_bne, Bool.false_bne]), ?_⟩
  rw [Bool.false_bne]
  exact find_iff hm addr

/-- The network 10.0.0.0/8, with an interface without a mask before it. --/
theorem local_matches_ten :
    let lib : Libudjat := ⟨fun _ => none, strcasecmp, fun _ => true⟩
    let ifaces : List Interface := [⟨some (.inet 0x0100007F), none⟩, ⟨some (.inet 0x0100000A), some 0x000000FF⟩]
    ∃ L R, State.ofNode lib { subnet := some "local" } = some L ∧ State.ofNode lib { subnet := some "remote" } = some R ∧
      ∃ b, ((L.compares [(none, .inet 0)]).compare (some ifaces) (.inet 0x0302010A)).2 = some b ∧
        ((R.compares []).compare (some ifaces) (.inet 0x0302010A)).2 = some (!b) ∧
          (b = true ↔ InNetwork ifaces 0x0302010A) := by
  intro lib ifaces
  refine local_matches_iff lib ⟨_, List.mem_cons_self, rfl, rfl⟩ ⟨("remote", true), by decide, rfl, rfl⟩ _ _ ?_ _
  intro iface hiface i m hi hm
  simp only [ifaces, List.mem_cons, List.not_mem_nil, or_false] at hiface
  rcases hiface with rfl | rfl
  · cases hm
  · cases hm
    exact ⟨8, by decide, by decide⟩

end UdjatNetwork.Ip
