import UdjatNetwork.Theorems.DefaultGateway

/-! # Answers to the request for the routes

The loop of `detect` that receives asks the header of its own request, which never changes, whether there is more to
come and whether the answer is an error. So it takes one datagram, of routes or not, and no more. -/

namespace UdjatNetwork.NetLink
open Bytes Records Layout

/-- The datagrams of a dump: the end of the dump comes with the last one. -/
def datagrams (seq pid : UInt32) (firsts : List (List Route)) (last : List Route) : List Dump :=
  firsts.map (fun routes => { seq, pid, routes := routes }) ++ [{ seq, pid, routes := last, done := true }]

/-- A dump as the kernel sends it, over any number of datagrams that fit into the buffer of `detect`. -/
structure Parts where
  seq : UInt32 := 0
  pid : UInt32 := 0
  firsts : List (List Route)
  last : List Route
  nonempty : ∀ routes ∈ firsts, routes ≠ []
  fits : ∀ d ∈ datagrams seq pid firsts last, d.bytes.length ≤ Ip.Gateway.bufferSize

def Parts.routes (p : Parts) : List Route := p.firsts.flatten ++ p.last

/-- `NLMSG_ERROR`: an error, and the request, with or without its `rtmsg`. -/
structure ErrorReply where
  error : BitVec 32
  seq : UInt32 := 0
  pid : UInt32 := 0
  capped : Bool := false

def ErrorReply.bytes (e : ErrorReply) : List UInt8 :=
  toLE 4 (if e.capped then 36 else 48) ++ toLE 2 NLMSG_ERROR ++ toLE 2 (if e.capped then 0x100 else 0) ++
    toLE 4 e.seq.toNat ++ toLE 4 e.pid.toNat ++ toLE 4 e.error.toNat ++
    (toLE 4 rtmsgLength ++ toLE 2 RTM_GETROUTE ++ toLE 2 (NLM_F_DUMP ||| NLM_F_REQUEST) ++ toLE 4 e.seq.toNat ++
      toLE 4 e.pid.toNat ++ if e.capped then [] else List.replicate 12 0)

/-- What the kernel answers. -/
inductive RouteAnswer where
  | dump (p : Parts)
  | error (e : ErrorReply)

def RouteAnswer.recvs : RouteAnswer → List (Option (List UInt8))
  | dump p => (datagrams p.seq p.pid p.firsts p.last).map fun d => some d.bytes
  | error e => [some e.bytes]

end UdjatNetwork.NetLink

namespace UdjatNetwork.Ip
open Bytes NetLink Records Layout Gateway

/-- The attributes of the main table, each with the number of bytes from it to the end of its message. -/
def routeAttrs (routes : List Route) : List (Attr × Nat) :=
  routes.flatMap fun r => mainAttrs (.route r, 0)

def gatewaysOf (attrs : List (Attr × Nat)) : List (BitVec 32) := attrs.filterMap fun p => p.1.gateway?

/-- No gateway is refused for what follows it. -/
def Accepted (attrs : List (Attr × Nat)) : Prop := ∀ p ∈ attrs, p.1.gateway? ≠ none → p.2 ≤ 16

instance (attrs : List (Attr × Nat)) : Decidable (Accepted attrs) :=
  inferInstanceAs (Decidable (∀ p ∈ attrs, _))

/-- The address that the loops leave when they read all these routes; when there is none, `detect` throws. -/
def Gateway.reads (g : Gateway) (ifname : Nat → String) (routes : List Route) : Address :=
  if routes = [] then g.address
  else match (routeAttrs routes).foldlM (Found.attr ifname) { intf := g.intf } with
    | .error _ => g.address
    | .ok f => f.gateway

/-- After a dump the agent has the address that all the routes together give; an error makes `detect` throw, and
    leaves the address alone. -/
def Gateway.Follows (g : Gateway) (ifname : Nat → String) (recvs : List (Option (List UInt8))) : RouteAnswer → Prop
  | .dump p =>
    ((g.detect { recvs := (RouteAnswer.dump p).recvs ++ recvs, ifname }).1.state?.map fun t => t.address) =
      some (g.reads ifname p.routes)
  | .error e =>
    ∃ t, (g.detect { recvs := (RouteAnswer.error e).recvs ++ recvs, ifname }).1 = .threw t ∧ t.address = g.address

/-- What comes after the first datagram changes nothing: there is nothing, or a gateway of the first one is refused, or
    one of a later datagram, while the agent has the last gateway of the first one, or the later datagrams end with
    that gateway too, if they have one. -/
def FirstDecides (g : Gateway) (p : Parts) : Prop :=
  ∀ first rest, p.firsts = first :: rest →
    let attrs := routeAttrs first
    let later := routeAttrs (rest.flatten ++ p.last)
    let last := ((gatewaysOf attrs).getLast?.map Address.inet).getD .empty
    Accepted attrs →
      (Accepted later → ∀ a ∈ (gatewaysOf later).getLast?, last = .inet a) ∧ (¬ Accepted later → g.address = last)

/-! ### Routes -/

variable {g : Gateway} {ifname : Nat → String}

theorem flatMap_mainAttrs {record : Message → nlmsghdr.Record} (ms : List Message) :
    (whole record ms).flatMap mainAttrs = ms.flatMap fun m => mainAttrs (m, 0) := by
  induction ms with
  | nil => rfl
  | cons m ms ih =>
    rw [whole, List.flatMap_cons, List.flatMap_cons, ih]
    cases m <;> rfl

/-- Of a dump that fits into the buffer all attributes are seen. -/
theorem seen_fits {d : Dump} (h : d.bytes.length ≤ bufferSize) : seen d = routeAttrs d.routes := by
  unfold seen
  rw [List.take_of_length_le h, Dump.bytes, within_concat, flatMap_mainAttrs, Dump.messages, List.flatMap_append,
    List.flatMap_map]
  cases d.done <;> exact List.append_nil _

/-- One datagram with all the routes, that fits into the buffer, is read as a whole. -/
theorem detect_reads {d : Dump} (h : d.bytes.length ≤ bufferSize) (recvs : List (Option (List UInt8))) :
    ((g.detect { recvs := some d.bytes :: recvs, ifname }).1.state?.map fun t => t.address) =
      some (g.reads ifname d.routes) := by
  unfold Gateway.detect Gateway.reads
  simp only [Bool.not_true, Bool.or_self, Bool.false_eq_true, if_false, receive_dump]
  by_cases hr : d.routes = []
  · rw [if_pos hr, if_pos hr]
    rfl
  · rw [if_neg hr, if_neg hr]
    simp only [loops_dump, seen_fits h]
    cases (routeAttrs d.routes).foldlM (Found.attr ifname) { intf := g.intf } with
    | error e => rfl
    | ok f =>
      simp only [setAddress]
      rfl

theorem reads_eq {routes : List Route} (h : routes ≠ []) :
    g.reads ifname routes =
      if Accepted (routeAttrs routes) then ((gatewaysOf (routeAttrs routes)).getLast?.map Address.inet).getD .empty
      else g.address := by
  unfold Gateway.reads
  rw [if_neg h]
  split_ifs with hacc
  · rw [foldlM_attr hacc]
    rfl
  · obtain ⟨e, he⟩ : ∃ e, (routeAttrs routes).foldlM (Found.attr ifname) { intf := g.intf } = .error e :=
      foldlM_attr_long hacc _
    rw [he]

theorem reads_append {first : List Route} (h : first ≠ []) (later : List Route) :
    g.reads ifname first = g.reads ifname (first ++ later) ↔
      (Accepted (routeAttrs first) →
        (Accepted (routeAttrs later) → ∀ a ∈ (gatewaysOf (routeAttrs later)).getLast?,
          ((gatewaysOf (routeAttrs first)).getLast?.map Address.inet).getD .empty = .inet a) ∧
        (¬ Accepted (routeAttrs later) →
          g.address = ((gatewaysOf (routeAttrs first)).getLast?.map Address.inet).getD .empty)) := by
  have hattrs : routeAttrs (first ++ later) = routeAttrs first ++ routeAttrs later := List.flatMap_append
  have hacc : Accepted (routeAttrs (first ++ later)) ↔ Accepted (routeAttrs first) ∧ Accepted (routeAttrs later) := by
    rw [hattrs]
    exact List.forall_mem_append
  have hlast : (gatewaysOf (routeAttrs (first ++ later))).getLast? =
      (gatewaysOf (routeAttrs later)).getLast?.or (gatewaysOf (routeAttrs first)).getLast? := by
    rw [hattrs, gatewaysOf, List.filterMap_append, List.getLast?_append]
    rfl
  rw [reads_eq h, reads_eq (List.append_ne_nil_of_left_ne_nil h _), hlast]
  by_cases hfirst : Accepted (routeAttrs first)
  swap
  · rw [if_neg hfirst, if_neg fun hboth => hfirst (hacc.mp hboth).1]
    simp [hfirst]
  by_cases hlater : Accepted (routeAttrs later)
  · rw [if_pos hfirst, if_pos (hacc.mpr ⟨hfirst, hlater⟩)]
    cases (gatewaysOf (routeAttrs later)).getLast? with
    | none => simp [hlater]
    | some a => simp [hfirst, hlater]
  · rw [if_pos hfirst, if_neg fun hboth => hlater (hacc.mp hboth).2]
    simp [hfirst, hlater, eq_comm]

/-! ### Errors -/

theorem length_error (e : ErrorReply) : e.bytes.length = if e.capped then 36 else 48 := by
  cases h : e.capped <;> simp [ErrorReply.bytes, h]

theorem size_error (e : ErrorReply) : nlmsghdr.size e.bytes = e.bytes.length := by
  rw [length_error]
  change field e.bytes 0 4 = _
  simp only [ErrorReply.bytes, List.append_assoc]
  rw [field_append_left (by simp), field_toLE]
  cases e.capped <;> rfl

theorem type_error (e : ErrorReply) : field e.bytes 4 2 = NLMSG_ERROR := by
  simp only [ErrorReply.bytes, List.append_assoc]
  rw [field_append_right (by simp), length_toLE, field_append_left (by simp)]
  rfl

/-- Where a route has its table, an error has the first byte of the length of the request. -/
theorem table_error (e : ErrorReply) : field e.bytes 20 1 = rtmsgLength := by
  rw [ErrorReply.bytes, field_append_right (by simp)]
  simp only [List.length_append, length_toLE, List.append_assoc]
  rfl

/-- An error is taken for a message of a table other than the main one. -/
theorem detect_error (e : ErrorReply) (recvs : List (Option (List UInt8))) :
    (g.detect { recvs := some e.bytes :: recvs, ifname }).1 = .ok { g with address := .empty } := by
  have hlen : rtmsgLength ≤ e.bytes.length ∧ e.bytes.length ≤ bufferSize := by
    rw [length_error]
    cases e.capped <;> decide
  have hheader : nlmsghdr.header ≤ rtmsgLength := by decide
  have hreceive : receive {} 0 (some e.bytes :: recvs) = some e.bytes := by
    unfold receive
    simp only [Nat.sub_zero, List.take_of_length_le hlen.2]
    rw [if_neg (not_or.mpr ⟨not_not.mpr ⟨hheader.trans hlen.1, hheader, hlen.1⟩, by decide⟩), type_error,
      if_neg (by decide), if_pos (by decide)]
  have hwalk : nlmsghdr.walk e.bytes e.bytes.length = [(e.bytes, e.bytes.length)] := by
    have hok : nlmsghdr.Ok e.bytes e.bytes.length :=
      ⟨hheader.trans hlen.1, by rw [size_error]; exact hheader.trans hlen.1, (size_error e).le⟩
    have hend : e.bytes.length - align (nlmsghdr.size e.bytes) = 0 := by
      rw [size_error]
      exact Nat.sub_eq_zero_of_le (le_align _)
    rw [walk_of_ok _ hok, hend, walk_of_not_ok _ fun h => absurd h.1 (by decide)]
  unfold Gateway.detect
  simp only [Bool.not_true, Bool.or_self, Bool.false_eq_true, if_false, hreceive, hwalk, List.foldlM_cons,
    List.foldlM_nil, routeEntry, table_error]
  rw [if_pos (by decide)]
  exact setAddress g .empty g.intf

/-- `detect` follows the kernel when the first datagram decides, and never an error. --/
theorem answer_followed_iff (g : Gateway) (ifname : Nat → String) (recvs : List (Option (List UInt8))) (answer : RouteAnswer) :
    g.Follows ifname recvs answer ↔ ∃ p, answer = .dump p ∧ FirstDecides g p := by
  rcases answer with p | e
  · simp only [RouteAnswer.dump.injEq, exists_eq_left', Gateway.Follows, RouteAnswer.recvs, FirstDecides]
    rcases hfirsts : p.firsts with _ | ⟨first, rest⟩
    · have hfits := p.fits { seq := p.seq, pid := p.pid, routes := p.last, done := true } (by simp [datagrams])
      have hroutes : p.routes = p.last := by simp [Parts.routes, hfirsts]
      rw [datagrams, List.map_nil, List.nil_append, List.map_singleton, List.singleton_append, detect_reads hfits, hroutes]
      simp
    · have hfits := p.fits { seq := p.seq, pid := p.pid, routes := first } (by simp [datagrams, hfirsts])
      have hne := p.nonempty first (by rw [hfirsts]; exact List.mem_cons_self)
      have hroutes : p.routes = first ++ (rest.flatten ++ p.last) := by simp [Parts.routes, hfirsts]
      rw [datagrams, List.map_cons, List.cons_append, List.map_cons, List.cons_append, detect_reads hfits, hroutes,
        Option.some.injEq, reads_append hne]
      simp
  · refine iff_of_false ?_ (by simp)
    rintro ⟨t, ht, -⟩
    rw [RouteAnswer.recvs, List.singleton_append, detect_error] at ht
    cases ht

/-- A local route in the first datagram, and the default route in the second one. --/
theorem second_datagram_ignored :
    ¬ ∀ (g : Gateway) (ifname : Nat → String) (recvs : List (Option (List UInt8))) (answer : RouteAnswer),
      g.Follows ifname recvs answer := by
  intro h
  let direct : Route :=
    { table := 254, dstLen := 8, attrs := [.oif 2], one_gateway := Nat.zero_le 1, one_oif := Nat.le_refl 1,
      length_lt := by simp [concat, Attr.record, Attr.data, rtmsgLength, align] }
  let default : Route :=
    { table := 254, dstLen := 0, attrs := [.gateway 0x0101A8C0], one_gateway := Nat.le_refl 1, one_oif := Nat.zero_le 1,
      length_lt := by simp [concat, Attr.record, Attr.data, rtmsgLength, align] }
  let p : Parts := { firsts := [[direct]], last := [default], nonempty := by simp, fits := by decide +kernel }
  have hp := h {} (fun _ => "eth0") [] (.dump p)
  have hfits := p.fits { routes := [direct] } (by simp [datagrams, p])
  change ((Gateway.detect {} { recvs := some _ :: _, ifname := _ }).1.state?.map fun t => t.address) = _ at hp
  rw [detect_reads hfits] at hp
  exact absurd hp (by decide +kernel)

end UdjatNetwork.Ip
