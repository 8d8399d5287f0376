import UdjatNetwork.Ip.State
import UdjatNetwork.Theorems.SubnetText

/-! # A subnet, written and read

`to_string` writes a subnet as `set` reads it; so a network of the machine, in a `<state>` for its text, takes the
addresses of this network. -/

namespace UdjatNetwork.Ip

variable {lib : Libudjat} {text : Address → String} {sn : SubNet}

/-- The numbers up to this one are an `int`. -/
def intMax : Nat := 2147483647

/-! ### The numeral -/

theorem numeral_repr (n : Nat) : Numeral n.repr.toList ∧ Numeral.value n.repr.toList = n := by
  rw [Nat.toList_repr]
  refine ⟨⟨Nat.toDigits_ne_nil, fun c hc => Nat.isDigit_of_mem_toDigits (by decide) (by decide) hc⟩, ?_⟩
  exact Nat.ofDigitChars_eq_foldl.symm.trans Nat.ofDigitChars_ten_toDigits

theorem stoi_repr (n : Nat) : stoi n.repr.toList = if intMax < n then none else some (n : Int) := by
  obtain ⟨hnum, hvalue⟩ := numeral_repr n
  rw [stoi_numeral hnum, hvalue]
  rfl

/-! ### The text -/

theorem splits_toString (htext : ∀ a, '/' ∉ (text a).toList) (h : sn.addr ≠ .empty) :
    Splits (sn.toString text) (text sn.addr) sn.bits.repr := by
  refine ⟨?_, htext sn.addr⟩
  unfold SubNet.toString
  split
  · exact absurd ‹_› h
  · rfl

theorem set_none (lib : Libudjat) : SubNet.set lib "None" = none := rfl

/-- `set` reads the text of a subnet up to its number of bits, where it is not `None`. -/
theorem set_toString (htext : ∀ a, '/' ∉ (text a).toList) (h : sn.addr ≠ .empty) :
    SubNet.set lib (sn.toString text) =
      if intMax < sn.bits then none else (lib.address (text sn.addr)).map fun addr => { addr, bits := sn.bits } := by
  rw [set_splits lib (splits_toString htext h), stoi_repr]
  split_ifs with hbig
  · rfl
  · unfold intMax at hbig
    have hbits : ((sn.bits : Int) % 4294967296).toNat = sn.bits := by omega
    rw [Option.bind_some, hbits]

theorem countBits_le (n : Nat) (x : BitVec 64) : countBits n x ≤ n := by
  induction n generalizing x with
  | zero => exact Nat.le_refl 0
  | succ n ih =>
    have hrest := ih (x <<< 1)
    unfold countBits
    split_ifs <;> omega

/-- The networks of the machine are of IPv4, with at most 64 bits. -/
theorem ofInterfaces_network {ifaces : List Interface} (h : sn ∈ SubNet.ofInterfaces ifaces) :
    (∃ addr, sn.addr = .inet addr) ∧ sn.bits ≤ 64 := by
  obtain ⟨iface, -, hiface⟩ := List.mem_filterMap.mp h
  split at hiface
  · cases hiface
    exact ⟨⟨_, rfl⟩, countBits_le 64 _⟩
  · cases hiface

/-- A text with a slash is no word for the networks of the machine. -/
theorem locals_slash {s : String} (h : '/' ∈ s.toList) : locals.find? (fun l => strcasecmp s l.1) = none := by
  have hwords : ∀ l ∈ locals, '/' ∉ lower l.1 := by decide
  refine List.find?_eq_none.mpr fun l hl hsame => hwords l hl ?_
  have hlower : lower s = lower l.1 := by simpa [strcasecmp] using hsame
  rw [← hlower]
  exact List.mem_map.mpr ⟨'/', h, rfl⟩

/-! ### States -/

theorem reads_back (htext : ∀ a, '/' ∉ (text a).toList) :
    SubNet.set lib (sn.toString text) = some sn ↔
      sn.addr ≠ .empty ∧ lib.address (text sn.addr) = some sn.addr ∧ sn.bits ≤ intMax := by
  by_cases hempty : sn.addr = .empty
  · have hnone : sn.toString text = "None" := by rw [SubNet.toString, hempty]
    rw [hnone, set_none]
    exact ⟨fun h => (by cases h), fun h => absurd hempty h.1⟩
  · rw [set_toString htext hempty]
    split_ifs with hbig
    · exact ⟨fun h => (by cases h), fun h => absurd h.2.2 (Nat.not_le.mpr hbig)⟩
    · constructor
      · intro h
        obtain ⟨addr, haddr, hsn⟩ := Option.map_eq_some_iff.mp h
        have hsame : addr = sn.addr := congrArg SubNet.addr hsn
        exact ⟨hempty, hsame ▸ haddr, Nat.not_lt.mp hbig⟩
      · rintro ⟨-, haddr, -⟩
        rw [haddr]
        rfl

/-- The state for the text of a network of the machine, and what it takes. -/
theorem network_state (htext : ∀ a, '/' ∉ (text a).toList) (hread : ∀ a, lib.address (text (.inet a)) = some (.inet a))
    {ifaces : List Interface} (h : sn ∈ SubNet.ofInterfaces ifaces) {node : StateNode}
    (hnode : node.subnet = some (sn.toString text)) :
    State.ofNode lib node = some { level := node.level, kind := .subnet, subnet := sn } := by
  obtain ⟨⟨addr, haddr⟩, hbits⟩ := ofInterfaces_network h
  have hempty : sn.addr ≠ .empty := by rw [haddr]; exact Address.noConfusion
  have hset : SubNet.set lib (sn.toString text) = some sn := by
    refine (reads_back htext).mpr ⟨hempty, ?_, hbits.trans (by decide)⟩
    rw [haddr]
    exact hread addr
  have hslash : '/' ∈ (sn.toString text).toList := by
    rw [toList_splits (splits_toString htext hempty)]
    exact List.mem_append_right _ List.mem_cons_self
  unfold State.ofNode
  dsimp only
  rw [hnode, Option.getD_some, locals_slash hslash]
  exact congrArg (Option.map _) hset

/-! ### Addresses in dotted form -/

/-- The text of an IPv4 address: its bytes, in the order of the memory. -/
def dotted (a : BitVec 32) : String :=
  Nat.repr (a.toNat % 256) ++ "." ++ Nat.repr (a.toNat / 256 % 256) ++ "." ++ Nat.repr (a.toNat / 65536 % 256) ++ "." ++
    Nat.repr (a.toNat / 16777216 % 256)

/-- The byte that a text begins with, and what is behind it. -/
def octet (text : List Char) : Option (Nat × List Char) :=
  let digits := text.takeWhile Char.isDigit
  if digits = [] ∨ 255 < Numeral.value digits then none
  else some (Numeral.value digits, text.dropWhile Char.isDigit)

/-- The byte behind a dot. -/
def dotOctet : List Char → Option (Nat × List Char)
  | '.' :: text => octet text
  | _ => none

/-- The address in a text of four bytes. -/
def ofDotted (text : String) : Option (BitVec 32) :=
  (octet text.toList).bind fun (a, text) =>
    (dotOctet text).bind fun (b, text) =>
      (dotOctet text).bind fun (c, text) =>
        (dotOctet text).bind fun (d, text) =>
          if text = [] then some (BitVec.ofNat 32 (a + 256 * (b + 256 * (c + 256 * d)))) else none

theorem octet_repr {n : Nat} (hn : n < 256) {rest : List Char} (hrest : ∀ c ∈ rest.head?, c.isDigit = false) :
    octet (n.repr.toList ++ rest) = some (n, rest) := by
  obtain ⟨⟨hne, hdigits⟩, hvalue⟩ := numeral_repr n
  have htail : rest.takeWhile Char.isDigit = [] ∧ rest.dropWhile Char.isDigit = rest := by
    cases rest with
    | nil => exact ⟨rfl, rfl⟩
    | cons c rest =>
      have hc : ¬ c.isDigit = true := by simpa using hrest c rfl
      exact ⟨List.takeWhile_cons_of_neg hc, List.dropWhile_cons_of_neg hc⟩
  unfold octet
  rw [List.takeWhile_append_of_pos hdigits, htail.1, List.append_nil, List.dropWhile_append_of_pos hdigits, htail.2]
  dsimp only
  rw [hvalue]
  exact if_neg (not_or.mpr ⟨hne, by omega⟩)

theorem ofDotted_dotted (a : BitVec 32) : ofDotted (dotted a) = some a := by
  have ha : a.toNat < 2 ^ 32 := a.isLt
  have hbyte : ∀ n, n % 256 < 256 := fun n => Nat.mod_lt n (by decide)
  have hdot : ∀ rest : List Char, ∀ c ∈ ('.' :: rest).head?, c.isDigit = false := by simp
  have hend : ∀ c ∈ ([] : List Char).head?, c.isDigit = false := by simp
  have hlast := octet_repr (hbyte (a.toNat / 16777216)) hend
  rw [List.append_nil] at hlast
  have htext : (dotted a).toList = (a.toNat % 256).repr.toList ++ '.' :: ((a.toNat / 256 % 256).repr.toList ++
      '.' :: ((a.toNat / 65536 % 256).repr.toList ++ '.' :: (a.toNat / 16777216 % 256).repr.toList)) := by
    simp [dotted]
  unfold ofDotted
  rw [htext, octet_repr (hbyte _) (hdot _)]
  simp only [Option.bind_some, dotOctet, octet_repr (hbyte _) (hdot _), hlast, if_true]
  refine congrArg some (BitVec.eq_of_toNat_eq ?_)
  rw [BitVec.toNat_ofNat]
  omega

theorem dotted_slash (a : BitVec 32) : '/' ∉ (dotted a).toList := by
  have hdigits : ∀ n : Nat, '/' ∉ n.repr.toList := fun n hn => absurd ((numeral_repr n).1.2 '/' hn) (by decide)
  simp only [Nat.toList_repr] at hdigits
  simp [dotted, hdigits]

/-- The text of a subnet is read back as this subnet exactly when it has an address, whose text is read back, and its
    number of bits is an `int`. And an address is in the networks of the machine exactly when the state for the text of
    one of them takes it. --/
theorem subnet_reads_back (lib : Libudjat) (text : Address → String) (htext : ∀ a, '/' ∉ (text a).toList) :
    (∀ sn : SubNet, SubNet.set lib (sn.toString text) = some sn ↔
      sn.addr ≠ .empty ∧ lib.address (text sn.addr) = some sn.addr ∧ sn.bits ≤ intMax) ∧
    ((∀ a, lib.address (text (.inet a)) = some (.inet a)) →
      ∀ (st : State) (ifaces : List Interface) (a : BitVec 32), st.kind = .internal false →
        ((st.compare (some ifaces) (.inet a)).2 = some true ↔
          ∃ sn ∈ SubNet.ofInterfaces ifaces, ∃ own, State.ofNode lib { subnet := some (sn.toString text) } = some own ∧
            (own.compare none (.inet a)).2 = some true)) := by
  refine ⟨fun sn => reads_back htext, fun hread st ifaces a hkind => ?_⟩
  have hfound : (st.compare (some ifaces) (.inet a)).2 = some true ↔
      ∃ sn ∈ SubNet.ofInterfaces ifaces, sn.contains a = true := by
    rw [State.compare, State.compareInet, hkind]
    dsimp only
    rw [← List.find?_isSome]
    cases (SubNet.ofInterfaces ifaces).find? (·.contains a) <;> simp
  rw [hfound]
  refine exists_congr fun sn => and_congr_right fun hsn => ?_
  rw [network_state htext hread hsn rfl]
  constructor
  · exact fun h => ⟨_, rfl, congrArg some h⟩
  · rintro ⟨own, hown, h⟩
    cases hown
    exact Option.some.inj h

/-- The network 10.0.0.1/8, and an address in this network of an interface. --/
theorem subnet_reads_back_ten :
    let text : Address → String := fun
      | .inet a => dotted a
      | _ => ""
    let lib : Libudjat := ⟨fun t => (ofDotted t).map .inet, strcasecmp, fun _ => true⟩
    let sn : SubNet := { addr := .inet 0x0100000A, bits := 8 }
    let ifaces : List Interface := [{ addr := some (.inet 0x0100000A), netmask := some 0x000000FF }]
    SubNet.set lib (sn.toString text) = some sn ∧
      ∃ sn ∈ SubNet.ofInterfaces ifaces, ∃ own, State.ofNode lib { subnet := some (sn.toString text) } = some own ∧
        (own.compare none (.inet 0x0200000A)).2 = some true := by
  intro text lib sn ifaces
  have htext : ∀ a, '/' ∉ (text a).toList := fun a => by
    cases a with
    | inet a => exact dotted_slash a
    | empty | inet6 | other => exact List.not_mem_nil
  have hread : ∀ a, lib.address (text (.inet a)) = some (.inet a) := fun a => by
    simp only [lib, text, ofDotted_dotted, Option.map_some]
  have haddr : sn.addr ≠ .empty := Address.noConfusion
  have hbits : sn.bits ≤ intMax := by
    change 8 ≤ 2147483647
    omega
  have hfound : (({ level := .ready, kind := .internal false } : State).compare (some ifaces) (.inet 0x0200000A)).2 =
      some true := by
    decide +kernel
  clear_value lib text
  exact ⟨((subnet_reads_back lib text htext).1 sn).mpr ⟨haddr, hread _, hbits⟩,
    ((subnet_reads_back lib text htext).2 hread _ ifaces _ rfl).mp hfound⟩

end UdjatNetwork.Ip
