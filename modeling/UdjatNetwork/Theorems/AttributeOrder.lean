import UdjatNetwork.Theorems.DefaultGateway

/-! # The order of the attributes

For the size of `RTA_GATEWAY`, `detect` takes what is left of the message from this attribute on. Whether a gateway is
accepted depends on what stands behind it. -/

namespace UdjatNetwork.NetLink
open Records Layout

/-- The route, with its attributes in another order. -/
def Route.reorder (r : Route) {attrs : List Attr} (h : attrs.Perm r.attrs) : Route :=
  { r with
    attrs
    one_gateway := by
      rw [(h.filterMap _).length_eq]
      exact r.one_gateway
    one_oif := by
      rw [(h.filterMap _).length_eq]
      exact r.one_oif
    length_lt := by
      rw [length_concat_perm h]
      exact r.length_lt }

end UdjatNetwork.NetLink

namespace UdjatNetwork.Ip
open Bytes NetLink Records Layout Gateway

/-- Whatever the order of its attributes, `detect` takes the message of the route without an exception, and always
    leaves the same address. -/
def Gateway.IgnoresOrder (g : Gateway) (d : Dump) (r : Route) (recvs : List (Option (List UInt8)))
    (ifname : Nat → String) : Prop :=
  ∃ address, ∀ (attrs : List Attr) (h : attrs.Perm r.attrs), ∃ t,
    (g.detect { recvs := some ({ d with routes := [r.reorder h] } : Dump).bytes :: recvs, ifname }).1 = .ok t ∧
      t.address = address

theorem length_route (seq pid : UInt32) (r : Route) :
    (Message.record seq pid (.route r)).bytes.length = rtmsgLength + (concat Attr.record r.attrs).length := by
  simp [Message.record, Route.rtmsg, rtmsgLength]
  omega

/-- Of a dump with one route of the main table, the attributes are seen when the message lies in the buffer. -/
theorem seen_one (d : Dump) {r : Route} (hmain : r.table.toNat = RT_TABLE_MAIN) :
    seen { d with routes := [r] } =
      if rtmsgLength + (concat Attr.record r.attrs).length ≤ bufferSize then whole Attr.record r.attrs else [] := by
  have hend : ∀ len, (within (Message.record d.seq d.pid) len (if d.done then [.done] else [])).flatMap mainAttrs = [] := by
    intro len
    cases d.done
    · rfl
    · simp only [if_true, within]
      split <;> rfl
  have hle := le_align (Message.record d.seq d.pid (.route r)).bytes.length
  have hbytes : (Message.record d.seq d.pid (.route r)).bytes.length ≤ ({ d with routes := [r] } : Dump).bytes.length := by
    refine hle.trans ?_
    rw [← Record.length_padded, Dump.bytes, Dump.messages, List.map_singleton, List.singleton_append, concat_cons,
      List.length_append]
    exact Nat.le_add_right _ _
  rw [length_route] at hbytes
  unfold seen
  simp only [Dump.messages, List.map_singleton, List.singleton_append, within, length_route]
  by_cases hfit : rtmsgLength + (concat Attr.record r.attrs).length ≤ bufferSize
  · rw [if_pos (by rw [List.length_take]; exact Nat.le_min.mpr ⟨hfit, hbytes⟩), if_pos hfit, List.flatMap_cons, hend,
      List.append_nil, mainAttrs, if_pos hmain]
  · rw [if_neg fun h => hfit (h.trans (List.length_take_le _ _)), if_neg hfit]
    rfl

theorem seen_reorder (d : Dump) {r : Route} (hmain : r.table.toNat = RT_TABLE_MAIN) {attrs : List Attr}
    (h : attrs.Perm r.attrs) :
    seen { d with routes := [r.reorder h] } =
      if rtmsgLength + (concat Attr.record r.attrs).length ≤ bufferSize then whole Attr.record attrs else [] := by
  rw [seen_one d (r := r.reorder h) hmain, Route.reorder, length_concat_perm h]

/-- Attributes in another order have the same gateway. -/
theorem getLast?_perm {as bs : List (BitVec 32)} (h : as.Perm bs) (hle : bs.length ≤ 1) : as.getLast? = bs.head? := by
  rcases bs with _ | ⟨b, _ | ⟨c, bs⟩⟩
  · rw [h.eq_nil]
    rfl
  · rw [List.perm_singleton.mp h]
    rfl
  · simp at hle

/-- The order does not matter as long as no gateway can have more than eight bytes behind it, or where the message does
    not fit into the buffer, and nothing of it is read. --/
theorem ignoresOrder_iff (g : Gateway) (d : Dump) {r : Route} (hmain : r.table.toNat = RT_TABLE_MAIN)
    (hgateway : r.gateway? ≠ none) (recvs : List (Option (List UInt8))) (ifname : Nat → String) :
    g.IgnoresOrder d r recvs ifname ↔
      (concat Attr.record r.attrs).length ≤ 16 ∨ bufferSize < rtmsgLength + (concat Attr.record r.attrs).length := by
  unfold Gateway.IgnoresOrder
  simp only [detect_dump]
  constructor
  · rintro ⟨address, h⟩
    refine or_iff_not_imp_right.mpr fun hfit => ?_
    -- The gateway may come first, with all the attributes to be read.
    obtain ⟨addr, haddr⟩ := Option.ne_none_iff_exists'.mp hgateway
    obtain ⟨a, ha, hga⟩ := List.mem_filterMap.mp (List.mem_of_head? haddr)
    obtain ⟨pre, post, hattrs⟩ := List.append_of_mem ha
    have hperm : (a :: (pre ++ post)).Perm r.attrs := hattrs ▸ List.perm_middle.symm
    obtain ⟨t, ⟨-, hshort, -⟩, -⟩ := h _ hperm
    rw [GatewaysShort, seen_reorder d hmain, if_pos (Nat.not_lt.mp hfit)] at hshort
    rw [← length_concat_perm hperm]
    exact hshort (a, _) List.mem_cons_self (by rw [hga]; simp)
  · intro h
    refine ⟨if bufferSize < rtmsgLength + (concat Attr.record r.attrs).length then .empty
      else (r.gateway?.map Address.inet).getD .empty, fun attrs hperm => ⟨_, ⟨by simp, ?_, rfl⟩, ?_⟩⟩
    · intro p hp _
      rw [seen_reorder d hmain] at hp
      split at hp
      · rename_i hfit
        rw [← length_concat_perm hperm] at h
        exact (whole_le hp).trans (h.resolve_right fun hlong => by rw [length_concat_perm hperm] at hlong; omega)
      · cases hp
    · dsimp only
      rw [lastGateway, seen_reorder d hmain]
      by_cases hfit : rtmsgLength + (concat Attr.record r.attrs).length ≤ bufferSize
      · rw [if_pos hfit, if_neg (Nat.not_lt.mpr hfit), filterMap_whole, getLast?_perm (hperm.filterMap _) r.one_gateway]
        rfl
      · rw [if_neg hfit, if_pos (Nat.not_le.mp hfit)]
        rfl

/-- A gateway and an interface. --/
theorem ignoresOrder_short :
    let r : Route :=
      { table := 254, dstLen := 0, attrs := [.gateway 0x0101A8C0, .oif 2], one_gateway := Nat.le_refl 1,
        one_oif := Nat.le_refl 1, length_lt := by simp [concat, Attr.record, Attr.data, rtmsgLength, align] }
    Gateway.IgnoresOrder {} { routes := [], done := true } r [] (fun _ => "eth0") ↔
      (concat Attr.record r.attrs).length ≤ 16 ∨ bufferSize < rtmsgLength + (concat Attr.record r.attrs).length := by
  intro r
  exact ignoresOrder_iff {} _ rfl (by simp [r, Route.gateway?, Attr.gateway?]) [] _

/-- With a metric behind it, the gateway at the front of the message is refused. --/
theorem gateway_first_refused :
    ¬ ∀ (g : Gateway) (d : Dump) (r : Route), r.table.toNat = RT_TABLE_MAIN → r.gateway? ≠ none →
      ∀ (recvs : List (Option (List UInt8))) (ifname : Nat → String), g.IgnoresOrder d r recvs ifname := by
  intro h
  let r : Route :=
    { table := 254, dstLen := 0
      attrs := [.gateway 0x0101A8C0, .oif 2, .other 6 [100, 0, 0, 0] (by decide) (by decide)]
      one_gateway := Nat.le_refl 1, one_oif := Nat.le_refl 1
      length_lt := by simp [concat, Attr.record, Attr.data, rtmsgLength, align] }
  obtain ⟨address, ha⟩ := h {} { routes := [] } r rfl (by simp [r, Route.gateway?, Attr.gateway?]) [] fun _ => "eth0"
  obtain ⟨t, ht, -⟩ := ha r.attrs (List.Perm.refl _)
  obtain ⟨-, hshort, -⟩ := (detect_dump _ _ _ _ _).mp ht
  have hfit : rtmsgLength + (concat Attr.record r.attrs).length ≤ bufferSize := by decide +kernel
  rw [GatewaysShort, seen_reorder _ rfl, if_pos hfit] at hshort
  have hbig := hshort (.gateway 0x0101A8C0, (concat Attr.record r.attrs).length) List.mem_cons_self (by simp [Attr.gateway?])
  exact absurd hbig (by decide +kernel)

end UdjatNetwork.Ip
