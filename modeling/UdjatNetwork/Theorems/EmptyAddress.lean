import UdjatNetwork.Theorems.Local

/-! # The words of the table, and the empty address

For an address of family 0 a state tells whether its own subnet is empty. A state for a word such as `local` has
no subnet at first, and later the one in which it found the last address that it found; `revert` plays no part. -/

namespace UdjatNetwork.Ip
open State

/-- `for_each` finds a subnet of the address. -/
def found (ifaces : List Interface) : Address → Bool
  | .inet addr => ((SubNet.ofInterfaces ifaces).find? (·.contains addr)).isSome
  | _ => false

/-- The states for two nodes, freshly built: one matches the address, the other does not. -/
def Complementary (lib : Libudjat) (l r : StateNode) (ifaces : List Interface) (a : Address) : Prop :=
  ∃ L R, State.ofNode lib l = some L ∧ State.ofNode lib r = some R ∧
    ∃ b, (L.compare (some ifaces) a).2 = some b ∧ (R.compare (some ifaces) a).2 = some (!b)

/-- What a state says of an address, after it was compared with others while the interfaces stayed the same. -/
def State.after (st : State) (ifaces : List Interface) (before : List Address) (a : Address) : Option Bool :=
  ((st.compares (before.map (some ifaces, ·))).compare (some ifaces) a).2

theorem ofInterfaces_inet {ifaces : List Interface} {sn : SubNet} (h : sn ∈ SubNet.ofInterfaces ifaces) :
    sn.addr.isEmpty = false := by
  obtain ⟨iface, -, hsn⟩ := List.mem_filterMap.mp h
  split at hsn <;> cases hsn
  rfl

section
variable {st : State} {revert : Bool} (hk : st.kind = .internal revert) (ifaces : List Interface)
include hk

theorem compare_subnet (a : Address) :
    (st.compare (some ifaces) a).1.subnet.addr.isEmpty = (st.subnet.addr.isEmpty && !found ifaces a) := by
  cases a with
  | inet addr =>
    simp only [State.compare, State.compareInet, hk, found]
    cases hf : (SubNet.ofInterfaces ifaces).find? (·.contains addr) with
    | none => exact (Bool.and_true _).symm
    | some sn => exact (ofInterfaces_inet (List.mem_of_find?_eq_some hf)).trans (Bool.and_false _).symm
  | empty | inet6 | other => exact (Bool.and_true _).symm

/-- The state keeps no more of its past than whether it found something. -/
theorem compares_subnet (before : List Address) :
    (st.compares (before.map (some ifaces, ·))).subnet.addr.isEmpty =
      (st.subnet.addr.isEmpty && !before.any (found ifaces)) := by
  induction before generalizing st with
  | nil => exact (Bool.and_true _).symm
  | cons a before ih =>
    refine (ih ((compare_kind st (some ifaces) a).trans hk)).trans ?_
    rw [compare_subnet hk, List.any_cons, Bool.not_or, Bool.and_assoc]

/-- Only the answer for the empty address depends on the past. -/
theorem after_eq (before : List Address) (a : Address) :
    st.after ifaces before a =
      if a = .empty then some (st.subnet.addr.isEmpty && !before.any (found ifaces))
      else (st.compare (some ifaces) a).2 := by
  have hk' := (compares_kind st (before.map (some ifaces, ·))).trans hk
  cases a with
  | empty => exact congrArg some (compares_subnet hk ifaces before)
  | inet addr =>
    rw [if_neg (by simp)]
    exact (compare_internal hk' ifaces addr).trans (compare_internal hk ifaces addr).symm
  | inet6 addr =>
    rw [if_neg (by simp)]
    simp only [State.after, State.compare, State.compareInet6, hk, hk']
  | other family => rfl

end

/-- A word and its contrary: they agree on the empty address, and on no IPv4 address. --/
theorem complementary_iff (lib : Libudjat) {l r : StateNode} (hl : Internal false l) (hr : Internal true r)
    (ifaces : List Interface) {a : Address} (ha : a = .empty ∨ ∃ addr, a = .inet addr) :
    Complementary lib l r ifaces a ↔ a ≠ .empty := by
  unfold Complementary
  rw [ofNode_internal lib hl, ofNode_internal lib hr]
  rcases ha with rfl | ⟨addr, rfl⟩
  · refine iff_of_false ?_ fun h => h rfl
    rintro ⟨L, R, hL, hR, b, hb, hb'⟩
    cases hL
    cases hR
    cases hb
    cases hb'
  · refine iff_of_true ⟨_, _, rfl, rfl, _, compare_internal rfl ifaces addr, ?_⟩ (by simp)
    rw [compare_internal rfl, Bool.true_bne, Bool.false_bne]

theorem complementary_loopback :
    let lib : Libudjat := ⟨fun _ => none, strcasecmp, fun _ => true⟩
    Complementary lib { subnet := some "Local" } { subnet := some "external" }
        [⟨some (.inet 0x0100007F), some 0x000000FF⟩] (.inet 0x0100007F) ↔ Address.inet 0x0100007F ≠ .empty := by
  intro lib
  exact complementary_iff lib ⟨("local", false), List.mem_cons_self, rfl, by decide⟩
    ⟨("external", true), by decide, rfl, by decide⟩ _ (Or.inr ⟨_, rfl⟩)

/-- Without an address, the agent is both on the network and outside of it. --/
theorem not_complementary_empty :
    ¬ ∀ (lib : Libudjat) (l r : StateNode), Internal false l → Internal true r → ∀ (ifaces : List Interface) (a : Address),
      a = .empty ∨ (∃ addr, a = .inet addr) → Complementary lib l r ifaces a := by
  intro h
  obtain ⟨L, R, hL, hR, b, hb, hb'⟩ := h ⟨fun _ => none, strcasecmp, fun _ => true⟩ { subnet := some "local" }
    { subnet := some "remote" } ⟨_, List.mem_cons_self, rfl, by decide⟩ ⟨("remote", true), by decide, rfl, by decide⟩
    [⟨some (.inet 0x0100007F), some 0x000000FF⟩] .empty (Or.inl rfl)
  cases hL
  cases hR
  cases hb
  cases hb'

/-- Two pasts of the same state: it tells them apart by the empty address when it found something in one of them only. --/
theorem after_independent_iff (lib : Libudjat) {revert : Bool} {node : StateNode} (hn : Internal revert node)
    (ifaces : List Interface) (before before' : List Address) (a : Address) :
    (∃ st, State.ofNode lib node = some st ∧ st.after ifaces before a = st.after ifaces before' a) ↔
      (a = .empty → before.any (found ifaces) = before'.any (found ifaces)) := by
  rw [ofNode_internal lib hn]
  simp only [Option.some.injEq, exists_eq_left']
  rw [after_eq rfl, after_eq rfl]
  by_cases ha : a = .empty
  · simp [ha, Address.isEmpty]
  · simp [ha]

theorem after_independent_remote :
    let lib : Libudjat := ⟨fun _ => none, strcasecmp, fun _ => true⟩
    let ifaces : List Interface := [⟨some (.inet 0x0100000A), some 0x000000FF⟩]
    (∃ st, State.ofNode lib { subnet := some "remote" } = some st ∧
        st.after ifaces [.inet 0x0302010A, .empty] .empty = st.after ifaces [.inet 0x0402010A] .empty) ↔
      (Address.empty = .empty →
        [Address.inet 0x0302010A, .empty].any (found ifaces) = [Address.inet 0x0402010A].any (found ifaces)) := by
  intro lib ifaces
  exact after_independent_iff lib ⟨("remote", true), by decide, rfl, by decide⟩ ifaces _ _ _

/-- After an address of the network, the state does not match the empty address any more. --/
theorem after_depends :
    ¬ ∀ (lib : Libudjat) (revert : Bool) (node : StateNode), Internal revert node →
      ∀ (ifaces : List Interface) (before before' : List Address),
        (∀ b ∈ before ++ before', b = .empty ∨ ∃ addr, b = .inet addr) →
        ∀ a, a = .empty ∨ (∃ addr, a = .inet addr) →
          ∃ st, State.ofNode lib node = some st ∧ st.after ifaces before a = st.after ifaces before' a := by
  intro h
  obtain ⟨st, hst, he⟩ := h ⟨fun _ => none, strcasecmp, fun _ => true⟩ false { subnet := some "local" }
    ⟨_, List.mem_cons_self, rfl, by decide⟩ [⟨some (.inet 0x0100000A), some 0x000000FF⟩] [] [.inet 0x0302010A]
    (by simp) .empty (Or.inl rfl)
  cases hst
  exact absurd he (by decide)

end UdjatNetwork.Ip
