import UdjatNetwork.Ip.Gateway
import UdjatNetwork.NetLink.Dump

/-! # The default gateway

`detect` takes the gateway and the interface from the routes of the main table, each from the last route that
has one, and looks at no prefix length. -/

namespace UdjatNetwork.Ip
open Bytes NetLink Records Layout Gateway

/-! ### What a dump shows -/

/-- The attributes of the main table, each with the number of bytes from it to the end of its message. -/
def mainAttrs : Message × Nat → List (Attr × Nat)
  | (.route r, _) => if r.table.toNat = RT_TABLE_MAIN then whole Attr.record r.attrs else []
  | (.done, _) => []

/-- The attributes that `detect` meets: those of the messages that lie in its buffer. -/
def seen (d : Dump) : List (Attr × Nat) :=
  (within (Message.record d.seq d.pid) (d.bytes.take bufferSize).length d.messages).flatMap mainAttrs

def lastGateway (d : Dump) : Option (BitVec 32) := ((seen d).filterMap fun p => p.1.gateway?).getLast?

def lastOif (d : Dump) : Option (BitVec 32) := ((seen d).filterMap fun p => p.1.oif?).getLast?

/-- No gateway is refused for what follows it: at most eight bytes. -/
def GatewaysShort (d : Dump) : Prop := ∀ p ∈ seen d, p.1.gateway? ≠ none → p.2 ≤ 16

/-- The name of an interface, or the one recorded before where there is none. -/
def recorded (ifname : Nat → String) (intf : String) (oif : Option (BitVec 32)) : String :=
  (oif.map fun index => ifname index.toNat).getD intf

/-- The agent has the gateway of a default route, and the interface of the same route is recorded, which is the one
    before if the route names none; or it has no address where the dump has no such route. -/
def Gateway.HasDefault (g : Gateway) (d : Dump) (ifname : Nat → String) (intf : String) : Prop :=
  (d.defaults ≠ [] → ∃ r ∈ d.defaults, (∃ addr, r.gateway? = some addr ∧ g.address = .inet addr) ∧
    g.intf = recorded ifname intf r.oif?) ∧
  (d.defaults = [] → g.address = .empty)

/-- There are routes, no gateway is refused, and what the main table has last is what a default route has;
    with no default route, it has no gateway. -/
def LastIsDefault (d : Dump) (ifname : Nat → String) (intf : String) : Prop :=
  d.routes ≠ [] ∧ GatewaysShort d ∧
  (d.defaults ≠ [] → ∃ r ∈ d.defaults, r.gateway? = lastGateway d ∧
    recorded ifname intf (lastOif d) = recorded ifname intf r.oif?) ∧
  (d.defaults = [] → lastGateway d = none)

/-! ### What the loops read -/

variable {ifname : Nat → String}

def Found.attr (ifname : Nat → String) (f : Found) (p : Attr × Nat) : Except Found Found :=
  match p.1 with
  | .oif index => .ok { f with intf := ifname index.toNat }
  | .gateway addr => if p.2 > 16 then .error f else .ok { f with gateway := .inet addr }
  | .other _ _ _ _ => .ok f

theorem routeAttribute_meets (f : Found) {v : List UInt8 × Nat} {p : Attr × Nat} (h : Meets Attr.record v p) :
    routeAttribute ifname f v = f.attr ifname p := by
  obtain ⟨⟨rest, hbytes⟩, hlen⟩ := h
  obtain ⟨a, n⟩ := p
  have hv : v.1 = toLE 2 (4 + a.data.length) ++ (toLE 2 a.type ++ (a.data ++ rest)) := by
    rw [← hbytes]
    simp [Attr.record]
  have htype : field v.1 2 2 = a.type % 65536 := by
    rw [hv, field_append_right (by simp), field_append_left (by simp)]
    exact field_toLE 2 a.type
  have hdata : field v.1 4 4 = field (a.data ++ rest) 0 4 := by
    rw [hv, field_append_right (by simp), field_append_right (by simp)]
    simp
  have hword : ∀ x : BitVec 32, field (toLE 4 x.toNat ++ rest) 0 4 = x.toNat := fun x => by
    rw [field_append_left (by simp), field_toLE]
    exact Nat.mod_eq_of_lt x.isLt
  unfold routeAttribute Found.attr
  rw [htype, hlen, hdata]
  cases a with
  | oif index => simp [Attr.type, Attr.data, RTA_OIF, hword]
  | gateway addr => simp [Attr.type, Attr.data, RTA_OIF, RTA_GATEWAY, hword]
  | other type data ht hd =>
    have hmod : type.toNat % 65536 = type.toNat := Nat.mod_eq_of_lt type.toNat_lt
    simp [Attr.type, hmod, ht.1, ht.2]

theorem field_table (r : Route) (bs : List UInt8) : field (r.rtmsg ++ bs) 4 1 = r.table.toNat := by
  simp [field, Route.rtmsg, ofLE]

theorem routeEntry_meets (seq pid : UInt32) (f : Found) {v : List UInt8 × Nat} {p : Message × Nat}
    (h : Meets (Message.record seq pid) v p) :
    routeEntry ifname f v = (mainAttrs p).foldlM (Found.attr ifname) f := by
  obtain ⟨⟨rest, hbytes⟩, -⟩ := h
  obtain ⟨m, n⟩ := p
  have hsize := (Message.record seq pid m).size_append rest
  rw [hbytes] at hsize
  unfold routeEntry
  cases m with
  | route r =>
    have hv : v.1 = header (rtmsgLength + (concat Attr.record r.attrs).length) RTM_NEWROUTE seq pid ++
        (r.rtmsg ++ (concat Attr.record r.attrs ++ rest)) := by
      rw [← hbytes]
      simp [Message.record]
    have htable : field v.1 20 1 = r.table.toNat := by
      rw [hv, field_append_right (by simp), length_header]
      exact field_table r _
    have hattrs : v.1.drop rtmsgLength = concat Attr.record r.attrs ++ rest := by
      rw [hv, ← List.append_assoc]
      exact List.drop_left' (by simp [Route.rtmsg, rtmsgLength])
    have hpayload : nlmsghdr.size v.1 - rtmsgLength = (concat Attr.record r.attrs).length := by
      rw [hsize]
      simp [Message.record, Route.rtmsg, rtmsgLength]
      omega
    rw [htable, hattrs, hpayload, mainAttrs]
    by_cases hmain : r.table.toNat = RT_TABLE_MAIN
    · rw [if_neg (not_not.mpr hmain), if_pos hmain]
      have hwalk : List.Forall₂ (Meets Attr.record) (rtattr.walk (concat Attr.record r.attrs ++ rest)
          (concat Attr.record r.attrs).length) (whole Attr.record r.attrs) := by
        rw [← within_concat]
        exact walk_records _ _ r.attrs (Nat.le_refl _) (by rw [List.take_left, List.take_length])
      exact foldlM_meets (fun f v p => routeAttribute_meets f) hwalk f
    · rw [if_pos hmain, if_neg hmain]
      rfl
  | done =>
    have hpayload : nlmsghdr.size v.1 - rtmsgLength = 0 := by
      rw [hsize]
      simp [Message.record, rtmsgLength]
    have hnone : rtattr.walk (v.1.drop rtmsgLength) 0 = [] :=
      walk_of_not_ok _ fun hok => absurd hok.1 (by decide)
    rw [hpayload, hnone]
    split_ifs <;> rfl

/-- Both loops together take one attribute after the other. -/
theorem foldlM_mainAttrs {ms : List (Message × Nat)} (f : Found) :
    ms.foldlM (fun f p => (mainAttrs p).foldlM (Found.attr ifname) f) f =
      (ms.flatMap mainAttrs).foldlM (Found.attr ifname) f := by
  induction ms generalizing f with
  | nil => rfl
  | cons m ms ih =>
    rw [List.foldlM_cons, List.flatMap_cons, List.foldlM_append]
    exact congrArg _ (funext ih)

theorem loops_dump (d : Dump) (f : Found) :
    (nlmsghdr.walk (d.bytes.take bufferSize) (d.bytes.take bufferSize).length).foldlM (routeEntry ifname) f =
      (seen d).foldlM (Found.attr ifname) f := by
  have hwalk : List.Forall₂ (Meets (Message.record d.seq d.pid))
      (nlmsghdr.walk (d.bytes.take bufferSize) (d.bytes.take bufferSize).length)
      (within (Message.record d.seq d.pid) (d.bytes.take bufferSize).length d.messages) := by
    refine walk_records _ _ d.messages (List.length_take_le' _ d.bytes) ?_
    rw [List.take_length, List.length_take]
    change _ = d.bytes.take _
    rcases Nat.le_total bufferSize d.bytes.length with h | h
    · rw [Nat.min_eq_left h]
    · rw [Nat.min_eq_right h, List.take_length, List.take_of_length_le h]
  rw [foldlM_meets (fun f v p => routeEntry_meets d.seq d.pid f) hwalk, foldlM_mainAttrs]
  rfl

/-! ### What the attributes amount to -/

/-- The last value of a list, with the one of its first member to fall back on. -/
theorem getD_last_cons {α β γ : Type} {f : α → Option β} {g : β → γ} {a : α} {b : β} (hb : f a = some b)
    (as : List α) (d : γ) :
    (((a :: as).filterMap f).getLast?.map g).getD d = ((as.filterMap f).getLast?.map g).getD (g b) := by
  rw [List.filterMap_cons_some hb, List.getLast?_cons]
  cases (as.filterMap f).getLast? <;> rfl

theorem foldlM_attr {ps : List (Attr × Nat)} (h : ∀ p ∈ ps, p.1.gateway? ≠ none → p.2 ≤ 16) (f : Found) :
    ps.foldlM (Found.attr ifname) f = .ok
      { gateway := ((ps.filterMap fun p => p.1.gateway?).getLast?.map Address.inet).getD f.gateway
        intf := recorded ifname f.intf (ps.filterMap fun p => p.1.oif?).getLast? } := by
  unfold recorded
  induction ps generalizing f with
  | nil => rfl
  | cons p ps ih =>
    have ih' := ih fun q hq => h q (List.mem_cons_of_mem p hq)
    obtain ⟨a, n⟩ := p
    rw [List.foldlM_cons]
    cases a with
    | oif index =>
      change ps.foldlM (Found.attr ifname) { f with intf := ifname index.toNat } = _
      rw [ih', getD_last_cons (f := fun p : Attr × Nat => p.1.oif?) (b := index) rfl, List.filterMap_cons_none rfl]
    | gateway addr =>
      have hn : ¬ n > 16 := Nat.not_lt.mpr (h _ List.mem_cons_self (by simp [Attr.gateway?]))
      have hstep : Found.attr ifname f (.gateway addr, n) = .ok { f with gateway := .inet addr } := if_neg hn
      rw [hstep]
      change ps.foldlM (Found.attr ifname) { f with gateway := .inet addr } = _
      rw [ih', getD_last_cons (f := fun p : Attr × Nat => p.1.gateway?) (b := addr) rfl,
        List.filterMap_cons_none (f := fun p : Attr × Nat => p.1.oif?) rfl]
    | other type data ht hd =>
      change ps.foldlM (Found.attr ifname) f = _
      rw [ih', List.filterMap_cons_none rfl, List.filterMap_cons_none rfl]

/-- A gateway that is refused makes `detect` throw. -/
theorem foldlM_attr_long {ps : List (Attr × Nat)} (h : ¬ ∀ p ∈ ps, p.1.gateway? ≠ none → p.2 ≤ 16) (f : Found) :
    ∃ e, ps.foldlM (Found.attr ifname) f = .error e := by
  induction ps generalizing f with
  | nil => simp at h
  | cons p ps ih =>
    rw [List.foldlM_cons]
    rcases hstep : Found.attr ifname f p with e | f'
    · exact ⟨e, rfl⟩
    · refine ih (fun hps => h fun q hq => ?_) f'
      rcases List.mem_cons.mp hq with rfl | hq
      · intro hg
        obtain ⟨a, n⟩ := q
        cases a with
        | gateway addr =>
          simp only [Found.attr] at hstep
          split_ifs at hstep with hn
          exact Nat.not_lt.mp hn
        | oif | other => exact absurd rfl hg
      · exact hps q hq

/-! ### The detection -/

theorem length_dump {d : Dump} (h : d.routes ≠ []) : rtmsgLength ≤ (d.bytes.take bufferSize).length := by
  obtain ⟨r, rs, hr⟩ := List.exists_cons_of_ne_nil h
  have hle := le_align (Message.record d.seq d.pid (.route r)).bytes.length
  have hlen : rtmsgLength ≤ (Message.record d.seq d.pid (.route r)).bytes.length := by
    simp [Message.record, Route.rtmsg, rtmsgLength]
    omega
  have htotal : rtmsgLength ≤ d.bytes.length := by
    rw [Dump.bytes, Dump.messages, hr, List.map_cons, List.cons_append, concat_cons, List.length_append,
      Record.length_padded]
    omega
  rw [List.length_take]
  exact Nat.le_min.mpr ⟨by decide, htotal⟩

/-- Of a dump in one datagram the loop takes what fits into the buffer; without a route it throws. -/
theorem receive_dump (d : Dump) (recvs : List (Option (List UInt8))) :
    receive {} 0 (some d.bytes :: recvs) = if d.routes = [] then none else some (d.bytes.take bufferSize) := by
  unfold receive
  by_cases h : d.routes = []
  · have hshort : (d.bytes.take bufferSize).length < rtmsgLength := by
      rw [Dump.bytes, Dump.messages, h]
      cases d.done <;> simp [concat, Message.record, rtmsgLength, bufferSize, align]
    rw [if_pos h]
    simp only [Nat.sub_zero]
    rw [if_pos (Or.inl fun hok => absurd hok.2.2 (Nat.not_le.mpr hshort))]
  · have hlen := length_dump h
    have hheader : nlmsghdr.header ≤ rtmsgLength := by decide
    rw [if_neg h]
    simp only [Nat.sub_zero]
    rw [if_neg (not_or.mpr ⟨not_not.mpr ⟨Nat.le_trans hheader hlen, hheader, hlen⟩, by decide⟩)]
    split_ifs with hdone hmulti
    · rfl
    · rfl
    · exact absurd rfl hmulti
    · rfl

/-- The address is set when it is another one, so it is the new one in both cases. -/
theorem setAddress (g : Gateway) (address : Address) (intf : String) :
    (if address ≠ g.address then (Outcome.ok { g with intf, address }, true)
      else (Outcome.ok { g with intf }, false)).1 = .ok { g with address, intf } := by
  split_ifs with h
  · rfl
  · rw [not_not.mp h]

theorem detect_dump (g : Gateway) (d : Dump) (recvs : List (Option (List UInt8))) (ifname : Nat → String) (t : Gateway) :
    (g.detect { recvs := some d.bytes :: recvs, ifname }).1 = .ok t ↔
      d.routes ≠ [] ∧ GatewaysShort d ∧
        t = { g with
          address := ((lastGateway d).map Address.inet).getD .empty
          intf := recorded ifname g.intf (lastOif d) } := by
  unfold Gateway.detect
  simp only [Bool.not_true, Bool.or_self, Bool.false_eq_true, if_false, receive_dump]
  by_cases h : d.routes = []
  · simp [h]
  · rw [if_neg h]
    simp only [loops_dump]
    by_cases hshort : GatewaysShort d
    · rw [foldlM_attr hshort]
      simp only [setAddress]
      exact ⟨fun ht => ⟨h, hshort, (Outcome.ok.inj ht).symm⟩, fun ht => congrArg Outcome.ok ht.2.2.symm⟩
    · obtain ⟨e, he⟩ : ∃ e, (seen d).foldlM (Found.attr ifname) { intf := g.intf } = .error e :=
        foldlM_attr_long hshort _
      rw [he]
      simp [hshort]

/-- After a dump in one datagram, `detect` returns with the gateway of a default route and the interface of the
    same route (the one recorded before, if that route names none), or with no address when there is no such
    route, if and only if there are routes, none has a gateway with more than eight bytes behind it, and the last
    gateway and interface of the main table that lie in the buffer are those of a default route. --/
theorem detect_default_iff (g : Gateway) (d : Dump) (recvs : List (Option (List UInt8))) (ifname : Nat → String) :
    (∃ t, (g.detect { recvs := some d.bytes :: recvs, ifname }).1 = .ok t ∧ t.HasDefault d ifname g.intf) ↔
      LastIsDefault d ifname g.intf := by
  simp only [detect_dump]
  unfold Gateway.HasDefault LastIsDefault
  have hgateway : ∀ r ∈ d.defaults, (∃ addr, r.gateway? = some addr ∧
      ((lastGateway d).map Address.inet).getD .empty = .inet addr) ↔ r.gateway? = lastGateway d := by
    intro r hr
    have hsome : r.gateway? ≠ none := (by simpa [Dump.defaults] using hr : r ∈ d.routes ∧ r.IsDefault).2.2.2
    obtain ⟨addr, haddr⟩ := Option.ne_none_iff_exists'.mp hsome
    rw [haddr]
    cases lastGateway d with
    | none => simp
    | some last => simp [eq_comm]
  have hempty : ((lastGateway d).map Address.inet).getD .empty = .empty ↔ lastGateway d = none := by
    cases lastGateway d <;> simp
  constructor
  · rintro ⟨t, ⟨h, hshort, rfl⟩, hdefault, hnone⟩
    refine ⟨h, hshort, fun hd => ?_, fun hd => hempty.mp (hnone hd)⟩
    obtain ⟨r, hr, haddr, hintf⟩ := hdefault hd
    exact ⟨r, hr, (hgateway r hr).mp haddr, hintf⟩
  · rintro ⟨h, hshort, hdefault, hnone⟩
    refine ⟨_, ⟨h, hshort, rfl⟩, fun hd => ?_, fun hd => hempty.mpr (hnone hd)⟩
    obtain ⟨r, hr, haddr, hintf⟩ := hdefault hd
    exact ⟨r, hr, (hgateway r hr).mpr haddr, hintf⟩

/-- The default route, and a route to 10.0.0.0/8 through another gateway of the main table. --/
theorem static_route_wins :
    ¬ ∀ (g : Gateway) (d : Dump) (recvs : List (Option (List UInt8))) (ifname : Nat → String),
      ∃ t, (g.detect { recvs := some d.bytes :: recvs, ifname }).1 = .ok t ∧ t.HasDefault d ifname g.intf := by
  intro h
  let route (dstLen : UInt8) (addr index : BitVec 32) : Route :=
    { table := 254, dstLen, attrs := [.gateway addr, .oif index], one_gateway := Nat.le_refl 1,
      one_oif := Nat.le_refl 1, length_lt := by simp [concat, Attr.record, Attr.data, rtmsgLength, align] }
  let d : Dump := { routes := [route 0 0x0101A8C0 2, route 8 0x0201A8C0 2] }
  obtain ⟨t, ht, hdefault, -⟩ := h {} d [] fun _ => "eth0"
  obtain ⟨-, -, rfl⟩ := (detect_dump _ _ _ _ _).mp ht
  have hdefaults : d.defaults = [route 0 0x0101A8C0 2] := rfl
  have hlast : lastGateway d = some 0x0201A8C0 := by decide +kernel
  obtain ⟨r, hr, ⟨addr, hgw, haddr⟩, -⟩ := hdefault (by simp [hdefaults])
  rw [hdefaults, List.mem_singleton] at hr
  subst hr
  rw [hlast] at haddr
  have h1 : some addr = some 0x0101A8C0 := hgw.symm
  have h2 : Address.inet 0x0201A8C0 = .inet addr := haddr
  rw [Option.some.inj h1] at h2
  exact absurd h2 (by decide)

end UdjatNetwork.Ip
