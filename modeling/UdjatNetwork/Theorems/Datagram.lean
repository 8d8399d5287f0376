import UdjatNetwork.NetLink.Events

/-! # The loop over a datagram

As long as the messages and their padding lie in the datagram, the loop is the walk over its messages. Past the end
of the datagram its remaining length is negative, which reads as a large number without a sign: the loop goes on
behind it. -/

namespace UdjatNetwork.NetLink
open Bytes Records Layout Controller

variable {s : Controller} {threw : Listener → Nat → Bool}

/-- The event concerns bytes of the datagram only. -/
def Event.Inside (status : Nat) : Event → Prop
  | .header off => off + nlmsghdr.header ≤ status
  | .message _ off len => off + len ≤ status
  | .caught _ => True

/-- The call returns, and concerns bytes of the datagram only. -/
def Contained (s : Controller) (threw : Listener → Nat → Bool) (r : Received) : Prop :=
  ∃ fuel, (s.handleEvent threw fuel (.ok r)).2 = some (.ok ()) ∧
    ∀ e ∈ (s.handleEvent threw fuel (.ok r)).1, e.Inside r.status

/-- The message does not end the loop. -/
def NotFinal (v : List UInt8 × Nat) : Bool := field v.1 4 2 ∉ finalTypes

/-- Every message before the one that ends the loop has its padding in the datagram. -/
def Padded (bs : List UInt8) (len : Nat) : Prop :=
  ∀ v ∈ (nlmsghdr.walk bs len).takeWhile NotFinal, align (nlmsghdr.size v.1) ≤ v.2

/-! ### Lengths in 32 bits -/

theorem toNat_nlmsgAlign {len : Nat} (h : len ≤ sizeofBuf) : (nlmsgAlign (BitVec.ofNat 32 len)).toNat = align len := by
  -- Without its two low bits a number is a multiple of four.
  have hbits : ∀ x : BitVec 32, x &&& ~~~3#32 = (x >>> 2) <<< 2 := by
    intro x
    have hmask : ∀ i (hi : i < 32), (~~~3#32)[i] = decide (2 ≤ i) := by decide
    ext i hi
    rw [BitVec.getElem_and, hmask i hi, BitVec.getElem_shiftLeft]
    by_cases h2 : 2 ≤ i
    · have hi2 : 2 + (i - 2) = i := by omega
      rw [decide_eq_true h2, Bool.and_true, BitVec.getElem_ushiftRight, BitVec.getLsbD_eq_getElem (by omega)]
      simp only [hi2, decide_eq_false (Nat.not_lt.mpr h2), Bool.not_false, Bool.true_and]
    · rw [decide_eq_false h2, decide_eq_true (Nat.lt_of_not_le h2), Bool.and_false, Bool.not_true, Bool.false_and]
  have hlen : len + 3 < 2 ^ 32 := by unfold sizeofBuf at h; omega
  have hsum : (BitVec.ofNat 32 len + 3#32).toNat = len + 3 := by
    rw [BitVec.toNat_add, BitVec.toNat_ofNat, BitVec.toNat_ofNat]
    omega
  unfold nlmsgAlign
  change ((BitVec.ofNat 32 len + 3#32) &&& ~~~3#32).toNat = align len
  rw [hbits, BitVec.toNat_shiftLeft, BitVec.toNat_ushiftRight, hsum, Nat.shiftRight_eq_div_pow, Nat.shiftLeft_eq]
  unfold align
  omega

theorem toNat_size (bs : List UInt8) : (BitVec.ofNat 32 (nlmsghdr.size bs)).toNat = nlmsghdr.size bs := by
  rw [BitVec.toNat_ofNat]
  exact Nat.mod_eq_of_lt (field_lt bs 0 4)

/-- Behind the padding of a message the length that is left is the difference, with what it lacks taken from 2^32. -/
theorem toNat_next {len status : Nat} (hlen : len ≤ status) (hs : status ≤ sizeofBuf) :
    (BitVec.ofNat 32 status - nlmsgAlign (BitVec.ofNat 32 len)).toNat =
      if align len ≤ status then status - align len else 2 ^ 32 - (align len - status) := by
  have halign : align len ≤ sizeofBuf := by
    unfold align sizeofBuf at *
    omega
  rw [BitVec.toNat_sub, toNat_nlmsgAlign (hlen.trans hs), BitVec.toNat_ofNat]
  unfold sizeofBuf at *
  split_ifs <;> omega

/-- As long as the padding lies in what is left, the length stays one. -/
theorem ofNat_sub_nlmsgAlign {len status : Nat} (hlen : len ≤ status) (hs : status ≤ sizeofBuf) (hfit : align len ≤ status) :
    BitVec.ofNat 32 status - nlmsgAlign (BitVec.ofNat 32 len) = BitVec.ofNat 32 (status - align len) := by
  have hnext := toNat_next hlen hs
  rw [if_pos hfit] at hnext
  rw [← hnext, BitVec.ofNat_toNat, BitVec.setWidth_eq]

/-! ### The loop -/

/-- From an offset on the loop ends by a return, and concerns bytes of the datagram only. -/
def Ends (s : Controller) (threw : Listener → Nat → Bool) (r : Received) (off : Nat) (status : BitVec 32) : Prop :=
  ∃ fuel, (s.messages threw r.buf fuel off status).2 = some (.ok ()) ∧
    ∀ e ∈ (s.messages threw r.buf fuel off status).1, e.Inside r.status

variable {r : Received} {off len : Nat} {status : BitVec 32}

theorem inside_deliver (type : Nat) (h : off + len ≤ r.status) :
    ∀ e ∈ s.deliver threw type off len, e.Inside r.status := by
  intro e he
  obtain ⟨l, -, he⟩ := List.mem_flatMap.mp he
  split_ifs at he with hl ht
  · rcases List.mem_cons.mp he with rfl | he
    · exact h
    · cases List.mem_singleton.mp he
      trivial
  · cases List.mem_singleton.mp he
    exact h
  · cases he

/-- The loop examines the header at its offset, if there is room for one. -/
theorem header_mem (hs : nlmsghdr.header ≤ status.toNat) (fuel : Nat) :
    Event.header off ∈ (s.messages threw r.buf (fuel + 1) off status).1 := by
  rw [messages, if_neg (by omega)]
  split_ifs
  · exact List.mem_cons_self
  · dsimp only
    split_ifs <;> exact List.mem_cons_self

theorem not_ends (hs : nlmsghdr.header ≤ status.toNat) (hoff : r.status < off) : ¬ Ends s threw r off status := by
  rintro ⟨_ | fuel, hend, hall⟩
  · cases hend
  · have hin : off + nlmsghdr.header ≤ r.status := hall _ (header_mem hs fuel)
    omega

/-- A round at an offset in the datagram sees the length that is left as it is. -/
theorem messages_eq (hoff : off + len = r.status) (fuel : Nat) :
    s.messages threw r.buf (fuel + 1) off (BitVec.ofNat 32 len) =
      if nlmsghdr.Ok (r.buf.drop off) len then
        if NotFinal (r.buf.drop off, len) then
          let size := nlmsghdr.size (r.buf.drop off)
          let rest := s.messages threw r.buf fuel (off + align size)
            (BitVec.ofNat 32 len - nlmsgAlign (BitVec.ofNat 32 size))
          (.header off :: (s.deliver threw (field (r.buf.drop off) 4 2) off size ++ rest.1), rest.2)
        else ([.header off], some (.ok ()))
      else (if nlmsghdr.header ≤ len then [.header off] else [], some (.ok ())) := by
  have hbuf := r.length_buf
  have hstatus := r.status_le
  have hlen : (BitVec.ofNat 32 len).toNat = len := by
    rw [BitVec.toNat_ofNat]
    unfold sizeofBuf at hstatus
    omega
  rw [messages, hlen]
  by_cases hheader : nlmsghdr.header ≤ len
  swap
  · rw [if_pos (by omega), if_neg fun h => hheader h.1, if_neg hheader]
  rw [if_neg (by omega), if_neg (by omega)]
  simp only [toNat_size]
  by_cases hok : nlmsghdr.Ok (r.buf.drop off) len
  swap
  · have hbad : nlmsghdr.size (r.buf.drop off) < nlmsghdr.header ∨ len < nlmsghdr.size (r.buf.drop off) := by
      by_contra hsize
      exact hok ⟨hheader, by omega, by omega⟩
    rw [if_pos hbad, if_neg hok, if_pos hheader]
  have hguard : ¬ (nlmsghdr.size (r.buf.drop off) < nlmsghdr.header ∨ len < nlmsghdr.size (r.buf.drop off)) :=
    not_or.mpr ⟨Nat.not_lt.mpr hok.2.1, Nat.not_lt.mpr hok.2.2⟩
  rw [if_neg hguard, if_pos hok, toNat_nlmsgAlign (hok.2.2.trans (by omega))]
  by_cases hfinal : field (r.buf.drop off) 4 2 ∈ finalTypes <;> simp [NotFinal, hfinal]

theorem ends_next (hoff : off + len = r.status) (hok : nlmsghdr.Ok (r.buf.drop off) len)
    (hfinal : NotFinal (r.buf.drop off, len) = true) :
    Ends s threw r off (BitVec.ofNat 32 len) ↔
      Ends s threw r (off + align (nlmsghdr.size (r.buf.drop off)))
        (BitVec.ofNat 32 len - nlmsgAlign (BitVec.ofNat 32 (nlmsghdr.size (r.buf.drop off)))) := by
  have hround : ∀ fuel, s.messages threw r.buf (fuel + 1) off (BitVec.ofNat 32 len) = _ := messages_eq hoff
  simp only [if_pos hok, if_pos hfinal] at hround
  obtain ⟨hheader, -, hsize⟩ := hok
  constructor
  · rintro ⟨_ | fuel, hend, hall⟩
    · cases hend
    · rw [hround] at hend hall
      exact ⟨fuel, hend, fun e he => hall e (List.mem_cons_of_mem _ (List.mem_append_right _ he))⟩
  · rintro ⟨fuel, hend, hall⟩
    refine ⟨fuel + 1, by rwa [hround], fun e he => ?_⟩
    rw [hround] at he
    rcases List.mem_cons.mp he with rfl | he
    · change off + nlmsghdr.header ≤ r.status
      omega
    · rcases List.mem_append.mp he with he | he
      · exact inside_deliver _ (by omega) e he
      · exact hall e he

/-- The loop ends at once where the walk over the messages does, and at a message that ends it. -/
theorem ends_here (hoff : off + len = r.status)
    (h : nlmsghdr.Ok (r.buf.drop off) len → NotFinal (r.buf.drop off, len) ≠ true) :
    Ends s threw r off (BitVec.ofNat 32 len) := by
  have hend : s.messages threw r.buf 1 off (BitVec.ofNat 32 len) =
      (if nlmsghdr.header ≤ len then [.header off] else [], some (.ok ())) := by
    rw [messages_eq hoff]
    by_cases hok : nlmsghdr.Ok (r.buf.drop off) len
    · rw [if_pos hok, if_neg (h hok), if_pos hok.1]
    · rw [if_neg hok]
  refine ⟨1, by rw [hend], fun e he => ?_⟩
  rw [hend] at he
  dsimp only at he
  split_ifs at he with hheader
  · cases List.mem_singleton.mp he
    change off + nlmsghdr.header ≤ r.status
    omega
  · cases he

/-- In the datagram the loop ends as it should if and only if the messages that are left have their padding there. -/
theorem ends_iff (hoff : off + len = r.status) :
    Ends s threw r off (BitVec.ofNat 32 len) ↔ Padded (r.buf.drop off) len := by
  induction len using Nat.strongRecOn generalizing off with
  | ind len ih =>
    unfold Padded
    by_cases hok : nlmsghdr.Ok (r.buf.drop off) len
    swap
    · rw [walk_of_not_ok _ hok]
      exact iff_of_true (ends_here hoff fun h => absurd h hok) fun v hv => by cases hv
    rw [walk_of_ok _ hok, List.takeWhile_cons]
    by_cases hfinal : NotFinal (r.buf.drop off, len) = true
    swap
    · rw [if_neg hfinal]
      exact iff_of_true (ends_here hoff fun _ => hfinal) fun v hv => by cases hv
    rw [if_pos hfinal, List.forall_mem_cons, ends_next hoff hok hfinal]
    have hstatus := r.status_le
    have hpos : 0 < align (nlmsghdr.size (r.buf.drop off)) := by
      have := le_align (nlmsghdr.size (r.buf.drop off))
      have := nlmsghdr.header_pos
      have := hok.2.1
      omega
    by_cases hfit : align (nlmsghdr.size (r.buf.drop off)) ≤ len
    · rw [ofNat_sub_nlmsgAlign hok.2.2 (by omega) hfit, ih _ (by omega) (by omega), List.drop_drop]
      exact (and_iff_right hfit).symm
    · have hnext := toNat_next hok.2.2 (by omega)
      rw [if_neg hfit] at hnext
      refine iff_of_false (not_ends ?_ (by omega)) fun h => hfit h.1
      -- What a message of at most 4096 bytes lacks to its padding is small.
      have hlarge : align (nlmsghdr.size (r.buf.drop off)) ≤ sizeofBuf := by
        have := hok.2.2
        unfold align sizeofBuf at *
        omega
      have hheader : nlmsghdr.header = 16 := rfl
      rw [hnext, hheader]
      unfold sizeofBuf at *
      omega

theorem mem_deliver {l : Listener} {type x n : Nat} (h : .message l x n ∈ s.deliver threw type off len) :
    l ∈ s.listeners ∧ l.message.toNat = type ∧ x = off := by
  obtain ⟨y, hy, he⟩ := List.mem_flatMap.mp h
  split_ifs at he with hm ht
  · rcases List.mem_cons.mp he with he | he
    · cases he
      exact ⟨hy, hm, rfl⟩
    · cases List.mem_singleton.mp he
  · cases List.mem_singleton.mp he
    exact ⟨hy, hm, rfl⟩
  · cases he

/-- With the padding of the messages in the datagram, a round for each header is enough, and each call of a listener is
    for a message of its type. -/
theorem messages_padded (s : Controller) (threw : Listener → Nat → Bool) (hoff : off + len = r.status)
    (hpad : Padded (r.buf.drop off) len) (fuel : Nat) (hfuel : len < nlmsghdr.header * fuel) :
    (s.messages threw r.buf fuel off (BitVec.ofNat 32 len)).2 = some (.ok ()) ∧
      ∀ l x n, .message l x n ∈ (s.messages threw r.buf fuel off (BitVec.ofNat 32 len)).1 → l ∈ s.listeners ∧
        ∃ v ∈ (nlmsghdr.walk (r.buf.drop off) len).takeWhile NotFinal,
          v.1 = r.buf.drop x ∧ l.message.toNat = field v.1 4 2 := by
  induction fuel generalizing off len with
  | zero => exact absurd hfuel (Nat.not_lt_zero len)
  | succ fuel ih =>
    rw [messages_eq hoff]
    unfold Padded at hpad
    by_cases hok : nlmsghdr.Ok (r.buf.drop off) len
    swap
    · rw [if_neg hok]
      refine ⟨rfl, fun l x n he => ?_⟩
      dsimp only at he
      split_ifs at he
      · cases List.mem_singleton.mp he
      · cases he
    rw [walk_of_ok _ hok, List.takeWhile_cons, List.drop_drop] at hpad ⊢
    by_cases hfinal : NotFinal (r.buf.drop off, len) = true
    swap
    · rw [if_pos hok, if_neg hfinal]
      exact ⟨rfl, fun l x n he => by cases List.mem_singleton.mp he⟩
    rw [if_pos hfinal, List.forall_mem_cons] at hpad
    obtain ⟨hfit, hpad⟩ := hpad
    have hfit : align (nlmsghdr.size (r.buf.drop off)) ≤ len := hfit
    have hstatus := r.status_le
    have hheader := hok.2.1
    have hsize := le_align (nlmsghdr.size (r.buf.drop off))
    have hrest : off + align (nlmsghdr.size (r.buf.drop off)) + (len - align (nlmsghdr.size (r.buf.drop off))) =
        r.status := by omega
    obtain ⟨hend, hmem⟩ := ih hrest hpad (by rw [Nat.mul_succ] at hfuel; omega)
    rw [if_pos hok, if_pos hfinal, if_pos hfinal]
    dsimp only
    rw [ofNat_sub_nlmsgAlign hok.2.2 (by omega) hfit]
    refine ⟨hend, fun l x n he => ?_⟩
    rcases List.mem_cons.mp he with he | he
    · cases he
    · rcases List.mem_append.mp he with he | he
      · obtain ⟨hl, htype, rfl⟩ := mem_deliver he
        exact ⟨hl, _, List.mem_cons_self, rfl, htype⟩
      · obtain ⟨hl, v, hv, hx⟩ := hmem l x n he
        exact ⟨hl, v, List.mem_cons_of_mem _ hv, hx⟩

/-- For every datagram and whatever stands behind it in the buffer, `handle_event` returns, and examines and gives
    to the listeners bytes of the datagram only, if and only if every message that it meets before the one that
    ends its loop has its padding in the datagram. --/
theorem contained_iff (s : Controller) (threw : Listener → Nat → Bool) (r : Received) :
    Contained s threw r ↔ Padded r.buf r.status :=
  ends_iff (Nat.zero_add r.status)

/-- A datagram of one message of seventeen bytes. --/
theorem padding_missing : ¬ ∀ (s : Controller) (threw : Listener → Nat → Bool) (r : Received), Contained s threw r := by
  intro h
  let buf : List UInt8 := toLE 4 17 ++ List.replicate 4092 0
  have hlength : buf.length = sizeofBuf := by
    rw [List.length_append, length_toLE, List.length_replicate]
    rfl
  let r : Received := { buf, status := 17, length_buf := hlength, status_le := by decide }
  have hpadded : Padded buf 17 := (contained_iff {} (fun _ _ => false) r).mp (h _ _ r)
  have hsize : nlmsghdr.size buf = 17 := by
    change field buf 0 4 = 17
    rw [field_append_left (by rw [length_toLE]), field_toLE]
    rfl
  have htype : field buf 4 2 = 0 := by
    rw [field_append_right (by rw [length_toLE]), field, length_toLE, List.drop_zero, List.take_replicate]
    rfl
  have hok : nlmsghdr.Ok buf 17 := ⟨by decide, by rw [hsize]; decide, by rw [hsize]⟩
  have hfinal : NotFinal (buf, 17) = true := by
    unfold NotFinal
    rw [htype]
    rfl
  have hfit : align (nlmsghdr.size buf) ≤ 17 := by
    refine hpadded (buf, 17) ?_
    rw [walk_of_ok _ hok, List.takeWhile_cons, if_pos hfinal]
    exact List.mem_cons_self
  rw [hsize] at hfit
  exact absurd hfit (by decide)

end UdjatNetwork.NetLink
