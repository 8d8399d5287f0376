import UdjatNetwork.Ip.SubNet
import Mathlib.Data.List.TakeWhile

/-! # The text of a subnet

`SubNet::set` leaves the number of bits to `stoi`, which begins behind white space, takes a sign, and stops at the
first character that is no digit; what it returns goes into an `unsigned int` as it is. -/

namespace UdjatNetwork.Ip

/-- A decimal numeral: digits, and nothing else. -/
def Numeral (text : List Char) : Prop := text ≠ [] ∧ ∀ c ∈ text, c.isDigit = true

def Numeral.value (text : List Char) : Nat := text.foldl (fun n c => 10 * n + (c.toNat - '0'.toNat)) 0

/-- The text is cut at its first slash. -/
def Splits (t addr rest : String) : Prop := t = addr ++ "/" ++ rest ∧ '/' ∉ addr.toList

/-- The text of a subnet: an address, and the number of bits of its mask. -/
def Denotes (lib : Libudjat) (t : String) (sn : SubNet) : Prop :=
  ∃ addr num, Splits t addr num ∧ lib.address addr = some sn.addr ∧ Numeral num.toList ∧
    Numeral.value num.toList = sn.bits ∧ sn.bits ≤ 32

/-- `set` takes a text for an IPv4 subnet only when it is the text of that subnet, and throws for all that is not
    the text of a subnet. -/
structure Exact (lib : Libudjat) (t : String) : Prop where
  inet : ∀ sn addr, SubNet.set lib t = some sn → sn.addr = .inet addr → Denotes lib t sn
  other : (¬ ∃ sn, Denotes lib t sn) → SubNet.set lib t = none

/-- `stoi` reads a number, though there is more than digits, or though it is no number of bits. -/
def Loose (rest : List Char) : Prop := ∃ n, stoi rest = some n ∧ ((∃ c ∈ rest, c.isDigit = false) ∨ 32 < n)

/-! ### The slash -/

section
variable {t addr rest : String}

theorem toList_splits (h : Splits t addr rest) : t.toList = addr.toList ++ '/' :: rest.toList := by
  rw [h.1]
  simp

theorem takeWhile_splits (h : Splits t addr rest) : t.toList.takeWhile (· ≠ '/') = addr.toList := by
  have hpos : ∀ c ∈ addr.toList, decide (c ≠ '/') = true := fun c hc => decide_eq_true fun he => h.2 (he ▸ hc)
  rw [toList_splits h, List.takeWhile_append_of_pos hpos, List.takeWhile_cons_of_neg (by decide), List.append_nil]

theorem dropWhile_splits (h : Splits t addr rest) : t.toList.dropWhile (· ≠ '/') = '/' :: rest.toList := by
  have hpos : ∀ c ∈ addr.toList, decide (c ≠ '/') = true := fun c hc => decide_eq_true fun he => h.2 (he ▸ hc)
  rw [toList_splits h, List.dropWhile_append_of_pos hpos, List.dropWhile_cons_of_neg (by decide)]

theorem set_splits (lib : Libudjat) (h : Splits t addr rest) :
    SubNet.set lib t = (stoi rest.toList).bind fun bits =>
      (lib.address addr).map fun a => { addr := a, bits := (bits % 4294967296).toNat } := by
  unfold SubNet.set
  rw [dropWhile_splits h, takeWhile_splits h, String.ofList_toList]

theorem Splits.unique {addr' rest' : String} (h : Splits t addr rest) (h' : Splits t addr' rest') :
    addr' = addr ∧ rest' = rest := by
  have ha := (takeWhile_splits h').symm.trans (takeWhile_splits h)
  have hr := (dropWhile_splits h').symm.trans (dropWhile_splits h)
  exact ⟨String.toList_inj.mp ha, String.toList_inj.mp (List.cons_inj_right _ |>.mp hr)⟩

end

theorem splits_of_mem {t : String} (h : '/' ∈ t.toList) : ∃ addr rest, Splits t addr rest := by
  obtain ⟨addr, rest, ht, hnot⟩ := List.eq_append_cons_of_mem h
  refine ⟨String.ofList addr, String.ofList rest, String.toList_inj.mp ?_, by rwa [String.toList_ofList]⟩
  simpa using ht

/-- Without a slash `set` throws. -/
theorem splits_of_set {lib : Libudjat} {t : String} {sn : SubNet} (h : SubNet.set lib t = some sn) :
    ∃ addr rest, Splits t addr rest := by
  refine splits_of_mem (Classical.byContradiction fun hnot => ?_)
  have hnil : t.toList.dropWhile (· ≠ '/') = [] :=
    List.dropWhile_eq_nil_iff.mpr fun c hc => decide_eq_true fun he => hnot (he ▸ hc)
  unfold SubNet.set at h
  rw [hnil] at h
  cases h

/-! ### The number -/

theorem isspace_digit {c : Char} (h : c.isDigit = true) : isspace c = false := by
  have hlow : 48 ≤ c.toNat := by
    simp only [Char.isDigit, Bool.and_eq_true, decide_eq_true_eq] at h
    exact h.1
  have hne : c ≠ ' ' := by
    rintro rfl
    exact absurd hlow (by decide)
  have hhigh : ¬ c ≤ '\r' := fun hle => absurd (hlow.trans (Char.le_def.mp hle)) (by decide)
  simp [isspace, hne, hhigh]

theorem stoi_numeral {text : List Char} (h : Numeral text) :
    stoi text = if 2147483647 < Numeral.value text then none else some (Numeral.value text : Int) := by
  obtain ⟨hne, hdigits⟩ := h
  obtain ⟨c, cs, rfl⟩ := List.exists_cons_of_ne_nil hne
  have hc := hdigits c List.mem_cons_self
  have hdrop : (c :: cs).dropWhile isspace = c :: cs :=
    List.dropWhile_cons_of_neg (by rw [isspace_digit hc]; decide)
  have htake : (c :: cs).takeWhile Char.isDigit = c :: cs := by
    rw [← List.append_nil (c :: cs), List.takeWhile_append_of_pos hdigits]
    rfl
  have hminus : c ≠ '-' := by
    rintro rfl
    exact absurd hc (by decide)
  have hplus : c ≠ '+' := by
    rintro rfl
    exact absurd hc (by decide)
  unfold stoi
  simp only [hdrop, List.head?_cons, Option.some.injEq, hminus, hplus, or_self, if_false, htake]
  rw [← Numeral.value]
  by_cases hbig : 2147483647 < Numeral.value (c :: cs)
  · rw [if_pos hbig, if_pos (Or.inr (Or.inr (by omega)))]
  · rw [if_neg hbig, if_neg]
    rintro (hnil | hlow | hhigh)
    · cases hnil
    · omega
    · omega

/-- A number that `stoi` reads of a plain numeral is the one of its digits. -/
theorem eq_value_of_stoi {text : List Char} {n : Int} (h : Numeral text) (hn : stoi text = some n) :
    n = Numeral.value text := by
  rw [stoi_numeral h] at hn
  split at hn
  · cases hn
  · exact (Option.some.inj hn).symm

theorem denotes_of_set {lib : Libudjat} {t : String} {sn : SubNet} (h : SubNet.set lib t = some sn)
    (hstrict : ∀ addr rest, Splits t addr rest → (lib.address addr).isSome = true → ¬ Loose rest.toList) :
    Denotes lib t sn := by
  obtain ⟨addr, rest, hs⟩ := splits_of_set h
  rw [set_splits lib hs] at h
  obtain ⟨n, hn, h⟩ := Option.bind_eq_some_iff.mp h
  obtain ⟨a, ha, rfl⟩ := Option.map_eq_some_iff.mp h
  have hloose := hstrict addr rest hs (by rw [ha]; rfl)
  have hdigits : ∀ c ∈ rest.toList, c.isDigit = true := fun c hc =>
    Bool.of_not_eq_false fun hf => hloose ⟨n, hn, Or.inl ⟨c, hc, hf⟩⟩
  have hle : n ≤ 32 := Int.not_lt.mp fun hlt => hloose ⟨n, hn, Or.inr hlt⟩
  have hnum : Numeral rest.toList := by
    refine ⟨fun hnil => ?_, hdigits⟩
    rw [hnil] at hn
    cases hn
  have hv := eq_value_of_stoi hnum hn
  refine ⟨addr, rest, hs, ha, hnum, ?_, ?_⟩ <;> dsimp only <;> omega

/-- Where the text begins with an address and a slash, `set` asks for no more than a number that `stoi` reads. --/
theorem exact_iff (lib : Libudjat) (t : String) :
    Exact lib t ↔
      ∀ addr rest, Splits t addr rest → (lib.address addr).isSome = true → ¬ Loose rest.toList := by
  constructor
  · rintro h addr rest hs ha ⟨n, hn, hbad⟩
    obtain ⟨a, ha⟩ := Option.isSome_iff_exists.mp ha
    have hset := set_splits lib hs
    rw [hn, ha] at hset
    have hden : ∃ sn, Denotes lib t sn := Classical.byContradiction fun hno => by
      rw [h.other hno] at hset
      cases hset
    obtain ⟨sn, addr', rest', hs', -, hnum, hv, hle⟩ := hden
    obtain ⟨rfl, rfl⟩ := hs.unique hs'
    have hvalue := eq_value_of_stoi hnum hn
    rcases hbad with ⟨c, hc, hf⟩ | hlt
    · rw [hnum.2 c hc] at hf
      cases hf
    · omega
  · intro hstrict
    refine ⟨fun sn addr h _ => denotes_of_set h hstrict, fun hno => ?_⟩
    cases h : SubNet.set lib t with
    | none => rfl
    | some sn => exact absurd ⟨sn, denotes_of_set h hstrict⟩ hno

/-- A dotted mask: `stoi` stops at the dot, and 255 bits are taken. --/
theorem dotted_mask_accepted :
    let lib : Libudjat := ⟨fun t => if t = "10.0.0.0" then some (.inet 0x0000000A) else none, strcasecmp, fun _ => true⟩
    SubNet.set lib "10.0.0.0/255.0.0.0" = some { addr := .inet 0x0000000A, bits := 255 } ∧
      ¬ Exact lib "10.0.0.0/255.0.0.0" := by
  intro lib
  have hset : SubNet.set lib "10.0.0.0/255.0.0.0" = some { addr := .inet 0x0000000A, bits := 255 } := by decide
  refine ⟨hset, fun h => ?_⟩
  obtain ⟨_, _, _, _, _, _, hle⟩ := h.inet _ _ hset rfl
  exact absurd hle (by decide)

end UdjatNetwork.Ip
