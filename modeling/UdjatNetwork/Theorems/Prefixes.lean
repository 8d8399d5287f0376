import Mathlib.Data.Set.Image
import UdjatNetwork.Ip.SubNet
import UdjatNetwork.Support.Prefix

/-! # The addresses of a subnet

`contains` compares under a mask that it shifts together, and turns into the order of the network. In host order, what
it compares is a prefix, of 32 bits at most. -/

namespace UdjatNetwork.Ip
open Prefix

/-- A subnet of IPv4, in the byte order of the network. -/
def SubNet.inet (base : BitVec 32) (bits : Nat) : SubNet := { addr := .inet base, bits }

def SubNet.addresses (sn : SubNet) : Set (BitVec 32) := {a | sn.contains a = true}

theorem htonl_injective : Function.Injective htonl := fun a b h => by
  rw [← htonl_htonl a, h, htonl_htonl]

theorem htonl_and (a b : BitVec 32) : htonl (a &&& b) = htonl a &&& htonl b := by
  refine BitVec.eq_of_getLsbD_eq fun i hi => ?_
  rw [getLsbD_htonl _ hi, BitVec.getLsbD_and, BitVec.getLsbD_and, getLsbD_htonl _ hi, getLsbD_htonl _ hi]

/-- The mask after `n` rounds, also after more than 32. -/
theorem getMsbD_netmask (n : Nat) : ∀ i < 32, (netmask n).getMsbD i = decide (i < n) := by
  induction n with
  | zero => simp [netmask]
  | succ n ih =>
    intro i hi
    have htop : (0x80000000 : BitVec 32).getMsbD i = decide (i = 0) := by
      revert i
      decide
    rw [netmask, BitVec.getMsbD_or, BitVec.getMsbD_ushiftRight, htop]
    rcases Nat.eq_zero_or_pos i with rfl | hpos
    · simp
    · rw [ih (i - 1) (by omega)]
      have hne : i ≠ 0 := by omega
      simp [hne, hi]
      omega

theorem contains_iff_same (base : BitVec 32) (n : Nat) (a : BitVec 32) :
    (SubNet.inet base n).contains a = true ↔ Same (min n 32) (htonl a) (htonl base) := by
  have hmask : ∀ i < 32, (netmask n).getMsbD i = decide (i < min n 32) := fun i hi => by
    rw [getMsbD_netmask n i hi]
    simp [hi]
  calc (SubNet.inet base n).contains a = true
    _ ↔ a &&& htonl (netmask n) = base &&& htonl (netmask n) := SubNet.contains_iff_and base n a
    _ ↔ htonl a &&& netmask n = htonl base &&& netmask n := by
      rw [← htonl_injective.eq_iff, htonl_and, htonl_and, htonl_htonl]
    _ ↔ Same (min n 32) (htonl a) (htonl base) := and_eq_and_iff (Nat.min_le_right n 32) hmask

theorem addresses_inet (base : BitVec 32) (n : Nat) :
    (SubNet.inet base n).addresses = Set.preimage htonl (block (min n 32) (htonl base)) :=
  Set.ext fun a => contains_iff_same base n a

/-- Without an address of IPv4 a subnet contains nothing. -/
theorem SubNet.addresses_cases (sn : SubNet) : sn.addresses = ∅ ∨ ∃ base n, sn = SubNet.inet base n := by
  rcases sn with ⟨addr, bits⟩
  cases addr with
  | inet base => exact Or.inr ⟨base, bits, rfl⟩
  | empty | inet6 | other => exact Or.inl (Set.eq_empty_of_forall_notMem fun _ ha => Bool.noConfusion ha)

theorem addresses_disjoint_or_nested (s t : SubNet) :
    Disjoint s.addresses t.addresses ∨ s.addresses ⊆ t.addresses ∨ t.addresses ⊆ s.addresses := by
  rcases s.addresses_cases with hs | ⟨a, j, rfl⟩
  · exact Or.inr (Or.inl (hs ▸ Set.empty_subset _))
  rcases t.addresses_cases with ht | ⟨b, k, rfl⟩
  · exact Or.inr (Or.inr (ht ▸ Set.empty_subset _))
  simp only [addresses_inet]
  rcases nested_or_disjoint (min j 32) (min k 32) (htonl a) (htonl b) with hdisj | hab | hba
  · exact Or.inl (hdisj.preimage htonl)
  · exact Or.inr (Or.inl (Set.preimage_mono hab))
  · exact Or.inr (Or.inr (Set.preimage_mono hba))

/-- A subnet contains the addresses that begin with the bits of its base, up to 32, in host order: fewer of them the
    more bits there are, all of them or only the base at the ends; two subnets are disjoint or nested. --/
theorem subnet_prefixes (base : BitVec 32) :
    (∀ n a, (SubNet.inet base n).contains a = true ↔ Same (min n 32) (htonl a) (htonl base)) ∧
      (Antitone fun n => (SubNet.inet base n).addresses) ∧
      (SubNet.inet base 0).addresses = Set.univ ∧
      (∀ n, 32 ≤ n → (SubNet.inet base n).addresses = {base}) ∧
      ∀ s t : SubNet,
        Disjoint s.addresses t.addresses ∨ s.addresses ⊆ t.addresses ∨ t.addresses ⊆ s.addresses := by
  refine ⟨contains_iff_same base, fun j k hjk => ?_, ?_, fun n hn => ?_, addresses_disjoint_or_nested⟩
  · simp only [addresses_inet]
    exact Set.preimage_mono (block_antitone _ (by omega))
  · rw [addresses_inet, Nat.zero_min, block_zero, Set.preimage_univ]
  · rw [addresses_inet, Nat.min_eq_right hn, block_width, ← Set.image_singleton, htonl_injective.preimage_image]

/-- Forty bits, of 10.0.0.1. --/
theorem subnet_prefixes_forty : (SubNet.inet 0x0100000A 40).addresses = {0x0100000A} := by
  obtain ⟨-, -, -, hfull, -⟩ := subnet_prefixes 0x0100000A
  exact hfull 40 (by decide)

end UdjatNetwork.Ip
