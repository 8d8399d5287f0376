import UdjatNetwork.Nic.Monitor
import UdjatNetwork.Support.Projection
import UdjatNetwork.Theorems.Delivery
import UdjatNetwork.Theorems.Flags
import UdjatNetwork.Theorems.Watcher

/-! # What agents see of links

Agents share one netlink socket, and each of them is handed the messages that are for its listeners. Each agent by
itself is then the machine of `Nic/Agent.lean`, and how the system packs messages into datagrams makes no difference. -/

namespace UdjatNetwork.Nic
open Bytes Machine Monitor NetLink Records

variable {m t : Monitor} {k : Nat} {i : Input} {a b : Agent} {r : Received} {name : Nat → Int → Option String}
  {table : Int → Option String}

/-! ### The mail of a datagram -/

/-- The call of a method, when the event is one. -/
def letter (r : Received) (name : Nat → Int → Option String) : NetLink.Event → Option (Nat × Agent.Input)
  | .message l off _ => some (l.object, input l (r.buf.drop (off + nlmsghdr.header)) (name off))
  | _ => none

/-- The calls that a message leads to, when `if_indextoname` reads from a table. -/
def lettersFor (s : Controller) (table : Int → Option String) (msg : Nlmsg) : List (Nat × Agent.Input) :=
  (s.callsFor msg).map fun c => (c.1.object, input c.1 c.2 table)

/-- A message to which listeners belong has the fields that they read. -/
def Long (s : Controller) (msg : Nlmsg) : Prop := ∀ c ∈ s.callsFor msg, ifinfomsgRead ≤ c.2.length

theorem ofBytes_take {data : List UInt8} {n : Nat} (hn : ifinfomsgRead ≤ n) :
    Ifinfomsg.ofBytes (data.take n) = Ifinfomsg.ofBytes data := by
  have hn : 12 ≤ n := hn
  rw [Ifinfomsg.ofBytes, field_take (by omega), field_take (by omega), Ifinfomsg.ofBytes]

theorem input_take {l : Listener} {data : List UInt8} {n : Nat} (hn : ifinfomsgRead ≤ n) (table : Int → Option String) :
    input l (data.take n) table = input l data table := by
  rw [input, ofBytes_take hn, input]

theorem mail_eq_some {es : List NetLink.Event} {l : List (Nat × Agent.Input)} (h : mail r name es = some l) :
    l = es.filterMap (letter r name) := by
  induction es generalizing l with
  | nil =>
    cases h
    rfl
  | cons e es ih =>
    cases e with
    | header off => exact ih h
    | caught x => exact ih h
    | message x off len =>
      rw [mail] at h
      split_ifs at h
      obtain ⟨l', hl', rfl⟩ := Option.map_eq_some_iff.mp h
      rw [ih hl']
      rfl

/-- There is mail, when no method reads behind the buffer. -/
theorem mail_fits {es : List NetLink.Event}
    (hfits : ∀ l x len, .message l x len ∈ es → x + nlmsghdr.header + ifinfomsgRead ≤ r.buf.length) :
    mail r name es = some (es.filterMap (letter r name)) := by
  induction es with
  | nil => rfl
  | cons e es ih =>
    have ih := ih fun l x len he => hfits l x len (List.mem_cons_of_mem e he)
    cases e with
    | header off => exact ih
    | caught l => exact ih
    | message l off len =>
      rw [mail, if_neg (Nat.not_lt.mpr (hfits l off len List.mem_cons_self)), ih]
      rfl

/-- No method reads behind the buffer, when the data of each call is long enough. -/
theorem fits_of_calls {es : List NetLink.Event} (hlong : ∀ c ∈ calls r.buf es, ifinfomsgRead ≤ c.2.length) :
    ∀ l x len, .message l x len ∈ es → x + nlmsghdr.header + ifinfomsgRead ≤ r.buf.length := fun l x len he => by
  have hcall : 12 ≤ ((r.buf.drop (x + 16)).take (len - 16)).length := hlong _ (List.mem_filterMap.mpr ⟨_, he, rfl⟩)
  rw [List.length_take, List.length_drop] at hcall
  change x + 16 + 12 ≤ r.buf.length
  omega

/-- With a table for `if_indextoname`, letters depend on the data of the calls only. -/
theorem letters_table {es : List NetLink.Event} (hlong : ∀ c ∈ calls r.buf es, ifinfomsgRead ≤ c.2.length) :
    es.filterMap (letter r fun _ => table) = (calls r.buf es).map fun c => (c.1.object, input c.1 c.2 table) := by
  induction es with
  | nil => rfl
  | cons e es ih =>
    cases e with
    | header off => exact ih hlong
    | caught l => exact ih hlong
    | message l off len =>
      obtain ⟨hfirst, hrest⟩ := List.forall_mem_cons.mp hlong
      have hn : ifinfomsgRead ≤ len - nlmsghdr.header := hfirst.trans (List.length_take_le _ _)
      change (l.object, input l (r.buf.drop (off + nlmsghdr.header)) table) :: _ =
        (l.object, input l ((r.buf.drop (off + nlmsghdr.header)).take (len - nlmsghdr.header)) table) :: _
      rw [input_take hn, ih hrest]
      rfl

/-- Only listeners of the controller are called. -/
theorem message_listener {s : Controller} {threw : Listener → Nat → Bool} {buf : List UInt8} {l : Listener} {x len : Nat}
    (fuel off : Nat) (status : BitVec 32) (he : .message l x len ∈ (s.messages threw buf fuel off status).1) :
    l ∈ s.listeners := by
  induction fuel generalizing off status with
  | zero => cases he
  | succ fuel ih =>
    rw [Controller.messages] at he
    split_ifs at he with h1 h2
    · cases he
    · simp at he
    · dsimp only at he
      split_ifs at he with h3 h4
      · simp at he
      · simp at he
      · rcases List.mem_cons.mp he with he | he
        · cases he
        · rcases List.mem_append.mp he with he | he
          · exact (mem_deliver he).1
          · exact ih _ _ he

/-- What is in the buffer when a batch is received. -/
theorem left_of_holds {batch : Batch} (hr : r.Holds batch.bytes) :
    Left r 0 r.status batch.messages ((batch.last.map fun p => p.1.bytes ++ p.2).getD []) := by
  obtain ⟨hstatus, hbuf⟩ := hr
  have hbytes : batch.bytes.length = (batch.messages.flatMap Nlmsg.padded).length +
      ((batch.last.map fun p => p.1.bytes ++ p.2).getD []).length := List.length_append
  refine ⟨Nat.zero_add _, hbuf, ?_, ?_⟩
  · rw [hstatus, hbytes]
    exact Nat.le_min.mpr ⟨Nat.le_add_right _ _, batch.fits⟩
  · cases hlast : batch.last with
    | none =>
      rw [hlast] at hbytes
      exact Or.inl (by rw [hstatus, hbytes]; exact Nat.min_eq_left batch.fits)
    | some p => exact Or.inr ⟨p.1, p.2, batch.final p hlast, rfl⟩

/-- The buffer has room for fewer messages than the loop may have rounds. -/
theorem length_messages (batch : Batch) : batch.messages.length < sizeofBuf := by
  have hsize : ∀ msgs : List Nlmsg, msgs.length * 16 ≤ (msgs.flatMap Nlmsg.padded).length := fun msgs => by
    induction msgs with
    | nil => exact Nat.zero_le _
    | cons msg msgs ih =>
      rw [List.flatMap_cons, List.length_append, msg.length_padded, List.length_cons]
      have := le_align (16 + msg.payload.length)
      omega
  have hall := (hsize batch.messages).trans batch.fits
  unfold sizeofBuf at *
  omega

/-- A batch is handed out in full. -/
theorem handleEvent_batch {batch : Batch} (s : Controller) (hr : r.Holds batch.bytes) :
    ∃ es, s.handleEvent (fun _ _ => false) sizeofBuf (.ok r) = (es, some (.ok ())) ∧
      calls r.buf es = batch.messages.flatMap s.callsFor ∧ ∀ l x len, .message l x len ∈ es → l ∈ s.listeners := by
  obtain ⟨hend, hcalls⟩ := (left_of_holds hr).messages (s := s) batch.going (length_messages batch)
  exact ⟨_, Prod.ext rfl hend, hcalls, fun l x len he => message_listener _ _ _ he⟩

/-- A batch whose messages are long enough, as mail for the agents. -/
theorem receive_batch {batch : Batch} (hr : r.Holds batch.bytes) (hlong : ∀ msg ∈ batch.messages, Long m.netlink msg) :
    m.receive (fun _ => table) (.ok r) =
      (dispatch Agent.step m.agents (batch.messages.flatMap (lettersFor m.netlink table))).map fun agents =>
        { m with agents } := by
  obtain ⟨es, hes, hcalls, -⟩ := handleEvent_batch m.netlink hr
  have hlong : ∀ c ∈ calls r.buf es, ifinfomsgRead ≤ c.2.length := fun c hc => by
    rw [hcalls] at hc
    obtain ⟨msg, hmsg, hc⟩ := List.mem_flatMap.mp hc
    exact hlong msg hmsg c hc
  have hletters : es.filterMap (letter r fun _ => table) = batch.messages.flatMap (lettersFor m.netlink table) := by
    rw [letters_table hlong, hcalls, List.map_flatMap]
    rfl
  rw [Monitor.receive, hes]
  simp only [mail_fits (fits_of_calls hlong), hletters, Option.bind_some]

/-! ### Steps -/

/-- Every message before the one that ends the datagram has its padding there, and, if it has a listener, the fields in
    the buffer that the method reads. -/
def Framed (s : Controller) (r : Received) : Prop :=
  Padded r.buf r.status ∧ ∀ v ∈ (nlmsghdr.walk r.buf r.status).takeWhile NotFinal, ∀ l ∈ s.listeners,
    l.message.toNat = field v.1 4 2 → nlmsghdr.header + ifinfomsgRead ≤ v.1.length

/-- The call is one of an agent that exists, or a datagram that is framed. -/
def Monitor.Proper (m : Monitor) : Input → Prop
  | .start object _ _ _ _ => (m.agents object).isSome
  | .refresh object _ => (m.agents object).isSome
  | .stop object => (m.agents object).isSome
  | .destroy object => (m.agents object).isSome
  | .receive _ (.error _) => True
  | .receive _ (.ok r) => Framed m.netlink r

/-- Every listener belongs to an agent that exists, and is one of the two that agents have. -/
def Monitor.Linked (m : Monitor) : Prop :=
  ∀ l ∈ m.netlink.listeners, (m.agents l.object).isSome ∧ ∃ type ∈ [RTM_NEWLINK, RTM_DELLINK], l = listener l.object type

/-- The call of an agent that a step is. -/
def asked (k : Nat) : Input → List Agent.Input
  | .start object ioctl index _ _ => if object = k then [.start ioctl index] else []
  | .refresh object ioctl => if object = k then [.refresh ioctl] else []
  | _ => []

/-- The calls of listeners that a step makes. -/
def letters (m : Monitor) : Input → List (Nat × Agent.Input)
  | .receive name (.ok r) =>
    (m.netlink.handleEvent (fun _ _ => false) sizeofBuf (.ok r)).1.filterMap (letter r name)
  | _ => []

/-- What an agent takes in a step. -/
def inputs (k : Nat) (m : Monitor) (i : Input) : List Agent.Input := asked k i ++ inbox k (letters m i)

theorem agents_store_self (m : Monitor) (k : Nat) (a : Agent) : (m.store k a).agents k = some a :=
  Function.update_self _ _ _

theorem agents_store_of_ne {object : Nat} (hk : object ≠ k) (m : Monitor) (a : Agent) :
    (m.store object a).agents k = m.agents k :=
  Function.update_of_ne (Ne.symm hk) _ _

theorem pushBack_listeners (s : Controller) (l : Listener) (env : PushEnv) :
    ∃ u, (s.pushBack l env).state? = some u ∧ u.listeners = s.listeners ++ [l] := by
  rcases pushBack_cases s l env with ⟨u, hu, -, hl, -⟩ | ⟨u, hu, -, hl⟩ <;> exact ⟨u, by rw [hu]; rfl, hl⟩

theorem mem_remove {s : Controller} {l : Listener} (hl : l ∈ (s.remove k).listeners) : l ∈ s.listeners ∧ l.object ≠ k := by
  have hlisteners : (s.remove k).listeners = s.listeners.filter (·.object ≠ k) := by
    unfold Controller.remove
    dsimp only
    split_ifs <;> rfl
  rw [hlisteners, List.mem_filter] at hl
  exact ⟨hl.1, by simpa using hl.2⟩

/-- A start is that of the agent, and adds listeners of it at most. -/
theorem start_cases {object : Nat} (ha : m.agents object = some a) (ioctl : Ioctl) (index : Int) (first second : PushEnv) :
    ∃ netlink, m.start object ioctl index first second = some { m.store object (a.start ioctl index) with netlink } ∧
      ∀ l ∈ netlink.listeners, l ∈ m.netlink.listeners ∨
        l.object = object ∧ ∃ type ∈ [RTM_NEWLINK, RTM_DELLINK], l = listener l.object type := by
  unfold Monitor.start Agent.start
  rw [ha, Option.bind_some]
  rcases a.refresh ioctl with ⟨c, _ | changed⟩
  · exact ⟨m.netlink, rfl, fun l hl => Or.inl hl⟩
  have new : ∀ {s u : Controller} {type : Nat}, type ∈ [RTM_NEWLINK, RTM_DELLINK] →
      u.listeners = s.listeners ++ [listener object type] → ∀ l ∈ u.listeners, l ∈ s.listeners ∨
        l.object = object ∧ ∃ type ∈ [RTM_NEWLINK, RTM_DELLINK], l = listener l.object type := by
    intro s u type htype hu l hl
    rw [hu] at hl
    refine (List.mem_append.mp hl).imp_right fun hl => ?_
    rw [List.mem_singleton.mp hl]
    exact ⟨rfl, type, htype, rfl⟩
  obtain ⟨u, hu, hlisteners⟩ := pushBack_listeners m.netlink (listener object RTM_NEWLINK) first
  have hfirst := new (by simp) hlisteners
  cases hpush : m.netlink.pushBack (listener object RTM_NEWLINK) first with
  | ok s =>
    rw [hpush] at hu
    cases hu
    obtain ⟨v, hv, hsecond⟩ := pushBack_listeners u (listener object RTM_DELLINK) second
    refine ⟨v, by simp only [Monitor.store, hpush, hv, Option.map_some], fun l hl => ?_⟩
    rcases new (by simp) hsecond l hl with hl | hl
    · exact hfirst l hl
    · exact Or.inr hl
  | threw s =>
    rw [hpush] at hu
    cases hu
    exact ⟨u, by simp only [Monitor.store, hpush]; rfl, hfirst⟩
  | undefined =>
    rw [hpush] at hu
    cases hu

/-- A datagram changes agents by its letters, and nothing else. -/
theorem receive_eq_some (h : m.receive name (.ok r) = some t) :
    t.netlink = m.netlink ∧ dispatch Agent.step m.agents (letters m (.receive name (.ok r))) = some t.agents := by
  unfold Monitor.receive at h
  dsimp only at h
  split at h
  · rename_i es hes
    obtain ⟨l, hl, h⟩ := Option.bind_eq_some_iff.mp h
    obtain ⟨agents, hagents, rfl⟩ := Option.map_eq_some_iff.mp h
    refine ⟨rfl, ?_⟩
    rw [mail_eq_some hl] at hagents
    unfold letters
    dsimp only
    rw [hes]
    exact hagents
  · cases h

/-- A step that stores an agent, which has taken an input. -/
theorem step_store {object : Nat} {c d : Agent} {j : Agent.Input} (hc : m.agents object = some c)
    (ha : m.agents k = some a) (hj : Agent.step c j = some d) :
    ∃ b, (m.store object d).agents k = some b ∧ exec Agent.step a (if object = k then [j] else []) = some b := by
  by_cases hk : object = k
  · subst hk
    obtain rfl : c = a := Option.some.inj (hc.symm.trans ha)
    refine ⟨d, agents_store_self m object d, ?_⟩
    rw [if_pos rfl, exec, hj]
    rfl
  · rw [if_neg hk]
    exact ⟨a, (agents_store_of_ne hk m d).trans ha, rfl⟩

/-- A step takes an agent through its inputs. -/
theorem step_inputs (ha : m.agents k = some a) (hd : i ≠ .destroy k) (ht : m.step i = some t) :
    ∃ b, t.agents k = some b ∧ exec Agent.step a (inputs k m i) = some b := by
  have quiet : inbox k (letters m i) = [] → inputs k m i = asked k i := fun h => by rw [inputs, h, List.append_nil]
  cases i with
  | start object ioctl index first second =>
    obtain ⟨c, hc, -⟩ := Option.bind_eq_some_iff.mp ht
    obtain ⟨netlink, hstart, -⟩ := start_cases hc ioctl index first second
    cases hstart.symm.trans ht
    rw [quiet rfl]
    exact step_store hc ha rfl
  | refresh object ioctl =>
    obtain ⟨c, hc, rfl⟩ := Option.map_eq_some_iff.mp ht
    rw [quiet rfl]
    exact step_store hc ha rfl
  | stop object =>
    obtain ⟨c, -, rfl⟩ := Option.map_eq_some_iff.mp ht
    exact ⟨a, ha, rfl⟩
  | destroy object =>
    obtain ⟨c, -, rfl⟩ := Option.map_eq_some_iff.mp ht
    have hk : object ≠ k := fun he => hd (he ▸ rfl)
    exact ⟨a, (Function.update_of_ne (Ne.symm hk) _ _).trans ha, rfl⟩
  | receive name recv =>
    cases recv with
    | error errno =>
      cases ht
      exact ⟨a, ha, rfl⟩
    | ok r =>
      obtain ⟨-, hdispatch⟩ := receive_eq_some ht
      obtain ⟨b, hb⟩ := exec_total step_total a (inbox k (letters m (.receive name (.ok r))))
      refine ⟨b, ?_, hb⟩
      rw [dispatch_eq_some hdispatch k, ha, Option.bind_some, hb]

theorem step_linked (hm : m.Linked) (ht : m.step i = some t) : t.Linked := by
  have stored : ∀ (k : Nat) (c : Agent), (m.store k c).Linked := fun k c l hl => by
    obtain ⟨hsome, htype⟩ := hm l hl
    refine ⟨?_, htype⟩
    by_cases hk : l.object = k
    · rw [hk, agents_store_self]
      rfl
    · rw [agents_store_of_ne (Ne.symm hk)]
      exact hsome
  cases i with
  | start object ioctl index first second =>
    obtain ⟨c, hc, -⟩ := Option.bind_eq_some_iff.mp ht
    obtain ⟨netlink, hstart, hnew⟩ := start_cases hc ioctl index first second
    cases hstart.symm.trans ht
    intro l hl
    rcases hnew l hl with hl | ⟨hobject, htype⟩
    · exact stored object _ l hl
    · refine ⟨?_, htype⟩
      rw [hobject]
      exact (congrArg Option.isSome (agents_store_self m object _)).trans rfl
  | refresh object ioctl =>
    obtain ⟨c, -, rfl⟩ := Option.map_eq_some_iff.mp ht
    exact stored object _
  | stop object =>
    obtain ⟨c, -, rfl⟩ := Option.map_eq_some_iff.mp ht
    exact fun l hl => hm l (mem_remove hl).1
  | destroy object =>
    obtain ⟨c, -, rfl⟩ := Option.map_eq_some_iff.mp ht
    intro l hl
    obtain ⟨hl, hne⟩ := mem_remove hl
    obtain ⟨hsome, htype⟩ := hm l hl
    exact ⟨(congrArg Option.isSome (Function.update_of_ne hne _ _)).trans hsome, htype⟩
  | receive name recv =>
    cases recv with
    | error errno =>
      cases ht
      exact hm
    | ok r =>
      obtain ⟨hnetlink, hdispatch⟩ := receive_eq_some ht
      intro l hl
      rw [hnetlink] at hl
      obtain ⟨hsome, htype⟩ := hm l hl
      obtain ⟨c, hc⟩ := Option.isSome_iff_exists.mp hsome
      refine ⟨?_, htype⟩
      obtain ⟨d, hd⟩ := exec_total step_total c (inbox l.object (letters m (.receive name (.ok r))))
      rw [dispatch_eq_some hdispatch, hc, Option.bind_some, hd]
      rfl

/-- Where listeners belong to agents that exist, a datagram whose calls find their fields in the buffer is handled. -/
theorem receive_defined (hm : m.Linked) {es : List NetLink.Event}
    (hes : m.netlink.handleEvent (fun _ _ => false) sizeofBuf (.ok r) = (es, some (.ok ())))
    (hcalled : ∀ l x len, .message l x len ∈ es → l ∈ m.netlink.listeners)
    (hfits : ∀ l x len, .message l x len ∈ es → x + nlmsghdr.header + ifinfomsgRead ≤ r.buf.length) :
    ∃ t, m.step (.receive name (.ok r)) = some t := by
  have hexist : ∀ p ∈ es.filterMap (letter r name), (m.agents p.1).isSome := fun p hp => by
    obtain ⟨e, he, hp⟩ := List.mem_filterMap.mp hp
    cases e with
    | header | caught => cases hp
    | message l off len =>
      cases hp
      exact (hm l (hcalled l off len he)).1
  obtain ⟨agents, hagents⟩ := exists_dispatch step_total hexist
  refine ⟨{ m with agents }, ?_⟩
  change m.receive name (.ok r) = _
  rw [Monitor.receive, hes]
  simp only [mail_fits hfits, Option.bind_some, hagents, Option.map_some]

theorem framed_defined (hm : m.Linked) (hr : Framed m.netlink r) : ∃ t, m.step (.receive name (.ok r)) = some t := by
  obtain ⟨hpadded, hlong⟩ := hr
  have hstatus : 0 + r.status = r.status := Nat.zero_add _
  have hfuel : r.status < nlmsghdr.header * sizeofBuf := Nat.lt_of_le_of_lt r.status_le (by decide)
  obtain ⟨hend, hmem⟩ := messages_padded m.netlink (fun _ _ => false) hstatus hpadded sizeofBuf hfuel
  refine receive_defined hm (Prod.ext rfl hend) (fun l x len he => (hmem l x len he).1) fun l x len he => ?_
  obtain ⟨hl, v, hv, hx, htype⟩ := hmem l x len he
  have hlength := hlong v hv l hl htype
  rw [hx, List.length_drop] at hlength
  change 16 + 12 ≤ r.buf.length - x at hlength
  change x + 16 + 12 ≤ r.buf.length
  omega

theorem batch_defined (hm : m.Linked) {batch : Batch} (hr : r.Holds batch.bytes)
    (hlong : ∀ msg ∈ batch.messages, Long m.netlink msg) : ∃ t, m.step (.receive name (.ok r)) = some t := by
  obtain ⟨es, hes, hcalls, hlisteners⟩ := handleEvent_batch m.netlink hr
  refine receive_defined hm hes hlisteners (fits_of_calls fun c hc => ?_)
  rw [hcalls] at hc
  obtain ⟨msg, hmsg, hc⟩ := List.mem_flatMap.mp hc
  exact hlong msg hmsg c hc

/-- Where listeners belong to agents that exist, a proper step is defined. -/
theorem step_defined (hm : m.Linked) (hi : m.Proper i) : ∃ t, m.step i = some t := by
  cases i with
  | start object ioctl index first second =>
    obtain ⟨c, hc⟩ := Option.isSome_iff_exists.mp hi
    obtain ⟨netlink, hstart, -⟩ := start_cases hc ioctl index first second
    exact ⟨_, hstart⟩
  | refresh object ioctl | stop object | destroy object =>
    obtain ⟨c, hc⟩ := Option.isSome_iff_exists.mp hi
    exact ⟨_, Option.map_eq_some_iff.mpr ⟨c, hc, rfl⟩⟩
  | receive name recv =>
    cases recv with
    | error errno => exact ⟨m, rfl⟩
    | ok r => exact framed_defined hm hi

/-! ### Runs -/

/-- The calls of an agent among its inputs, and the messages. -/
def Agent.Input.calls : Agent.Input → List Agent.Input
  | .start ioctl index => [.start ioctl index]
  | .refresh ioctl => [.refresh ioctl]
  | _ => []

def Agent.Input.links : Agent.Input → List Agent.Input
  | .newLink ifi name => [.newLink ifi name]
  | .delLink ifi => [.delLink ifi]
  | _ => []

theorem asked_links (k : Nat) (i : Input) : (asked k i).flatMap Agent.Input.links = [] := by
  cases i with
  | start | refresh =>
    unfold asked
    dsimp only
    split_ifs <;> rfl
  | stop | destroy | receive => rfl

theorem asked_calls (k : Nat) (i : Input) : (asked k i).flatMap Agent.Input.calls = asked k i := by
  cases i with
  | start | refresh =>
    unfold asked
    dsimp only
    split_ifs <;> rfl
  | stop | destroy | receive => rfl

theorem input_links (l : Listener) (data : List UInt8) (table : Int → Option String) :
    (input l data table).links = [input l data table] ∧ (input l data table).calls = [] := by
  unfold input
  dsimp only
  split_ifs <;> exact ⟨rfl, rfl⟩

theorem letters_links (m : Monitor) (i : Input) : ∀ p ∈ letters m i, p.2.links = [p.2] ∧ p.2.calls = [] := by
  intro p hp
  cases i with
  | start | refresh | stop | destroy => cases hp
  | receive name recv =>
    cases recv with
    | error errno => cases hp
    | ok r =>
      obtain ⟨e, -, he⟩ := List.mem_filterMap.mp hp
      cases e with
      | header | caught => cases he
      | message l off len =>
        cases he
        exact input_links _ _ _

theorem inbox_links (k : Nat) (m : Monitor) (i : Input) :
    (inbox k (letters m i)).flatMap Agent.Input.links = inbox k (letters m i) ∧
      (inbox k (letters m i)).flatMap Agent.Input.calls = [] := by
  have hall : ∀ j ∈ inbox k (letters m i), j.links = [j] ∧ j.calls = [] := fun j hj => by
    obtain ⟨p, hp, rfl⟩ := List.mem_map.mp hj
    exact letters_links m i p (List.mem_filter.mp hp).1
  exact ⟨(List.flatMap_congr fun j hj => (hall j hj).1).trans (List.flatMap_singleton' _),
    List.flatMap_eq_nil_iff.mpr fun j hj => (hall j hj).2⟩

/-- As long as it exists, an agent is the machine of an agent. -/
theorem projects (k : Nat) :
    Projects step Agent.step (fun m => (m.agents k).isSome) (fun _ i => i ≠ .destroy k)
      (fun m => (m.agents k).getD { name := "" }) (inputs k) where
  keeps m i t hI hd ht := by
    obtain ⟨a, ha⟩ := Option.isSome_iff_exists.mp hI
    obtain ⟨b, hb, -⟩ := step_inputs ha hd ht
    exact Option.isSome_iff_exists.mpr ⟨b, hb⟩
  run m i t hI hd ht := by
    obtain ⟨a, ha⟩ := Option.isSome_iff_exists.mp hI
    obtain ⟨b, hb, hexec⟩ := step_inputs ha hd ht
    rw [ha, hb]
    exact hexec

/-- In every run of the netlink controller and its agents, whichever datagrams arrive and whatever the other agents do,
    each agent that is not destroyed runs as it would by itself on what it takes step by step: the calls that were made
    of it and, among them, the messages that the controller handed to its listeners. --/
theorem nics_refine (agents : Nat → Option Agent) (is : List Input) (hm : exec step (init agents) is = some m) (k : Nat)
    (hlive : .destroy k ∉ is) (ha : agents k = some a) :
    let js := trace step (inputs k) (init agents) is
    ∃ b, exec Agent.step a js = some b ∧ m.agents k = some b ∧
      js.flatMap Agent.Input.calls = is.flatMap (asked k) ∧
      js.flatMap Agent.Input.links = inbox k (trace step letters (init agents) is) := by
  intro js
  have hI : ((init agents).agents k).isSome := Option.isSome_iff_exists.mpr ⟨a, ha⟩
  have hC : Along step (fun _ i => i ≠ .destroy k) (init agents) is := along_of_forall fun i hi he => hlive (he ▸ hi)
  have hrun := (projects k).exec hI hC hm
  have hkept : (m.agents k).isSome := (always_of_along (projects k).keeps hI hC).of_exec hm
  obtain ⟨b, hb⟩ := Option.isSome_iff_exists.mp hkept
  have ha : (init agents).agents k = some a := ha
  rw [ha, hb, Option.getD_some, Option.getD_some] at hrun
  refine ⟨b, hrun, hb, ?_, ?_⟩
  · refine trace_inputs (projects k).keeps (fun m i _ _ _ _ => ?_) hI hC hm
    rw [inputs, List.flatMap_append, asked_calls, (inbox_links k m i).2, List.append_nil]
  · have hlinks : ∀ (m : Monitor) (i : Input), (inputs k m i).flatMap Agent.Input.links = inbox k (letters m i) :=
      fun m i => by rw [inputs, List.flatMap_append, asked_links, (inbox_links k m i).1, List.nil_append]
    have hinbox : ∀ l : List (Nat × Agent.Input), l.flatMap (fun p => if p.1 = k then [p.2] else []) = inbox k l :=
      fun l => by
        induction l with
        | nil => rfl
        | cons p l ih => rw [List.flatMap_cons, ih, inbox_cons]
    rw [trace_flatMap hlinks, ← hinbox]
    exact (trace_flatMap (fun m i => hinbox (letters m i)) _ _).symm

theorem linked_init (agents : Nat → Option Agent) : (init agents).Linked := fun _ hl => by cases hl

theorem always_linked (agents : Nat → Option Agent) (is : List Input) : Always step Linked (init agents) is :=
  always_of_step (fun _ _ _ hm ht => step_linked hm ht) (linked_init agents) is

/-- All along every run, in which agents are started, stopped and destroyed at any time, each listener of the controller
    belongs to an agent that exists, and every call of an existing agent is handled, and every datagram whose messages
    have their padding in it and the fields that the methods read in the buffer: none reaches an agent that was
    destroyed. --/
theorem listeners_alive (agents : Nat → Option Agent) (is : List Input) :
    Along step (fun m i => m.Linked ∧ (m.Proper i → ∃ t, m.step i = some t)) (init agents) is :=
  (always_linked agents is).along.mono fun _ _ hm => ⟨hm, step_defined hm⟩

/-! ### Datagrams -/

/-- Datagrams of whole messages are mail of all their messages, however these are packed. -/
theorem exec_batches (table : Int → Option String) (hm : m.Linked) {batches : List Batch} {rs : List Received}
    (hr : List.Forall₂ (fun r batch => r.Holds batch.bytes) rs batches)
    (hlong : ∀ batch ∈ batches, ∀ msg ∈ batch.messages, Long m.netlink msg) :
    ∃ t, exec step m (rs.map fun r => .receive (fun _ => table) (.ok r)) = some t ∧ t.netlink = m.netlink ∧
      dispatch Agent.step m.agents ((batches.flatMap Batch.messages).flatMap (lettersFor m.netlink table)) =
        some t.agents := by
  induction hr generalizing m with
  | nil => exact ⟨m, rfl, rfl, rfl⟩
  | @cons r batch rs batches hr hrs ih =>
    obtain ⟨hfirst, hrest⟩ := List.forall_mem_cons.mp hlong
    obtain ⟨u, hu⟩ : ∃ u, m.step (.receive (fun _ => table) (.ok r)) = some u := batch_defined hm hr hfirst
    have hreceive : m.receive (fun _ => table) (.ok r) = some u := hu
    rw [receive_batch hr hfirst] at hreceive
    obtain ⟨agents, hagents, rfl⟩ := Option.map_eq_some_iff.mp hreceive
    obtain ⟨t, ht, hnetlink, hdispatch⟩ := ih (m := { m with agents }) (step_linked hm hu) hrest
    refine ⟨t, exec_cons_eq_some.mpr ⟨_, hu, ht⟩, hnetlink, ?_⟩
    rw [List.flatMap_cons, List.flatMap_append, dispatch_append, hagents]
    exact hdispatch

/-- In every state that a run reaches, datagrams of whole messages, long enough for the listeners of their type, take
    each agent through the messages for its listeners, once each and in their order, as if it were alone, while the names
    of the indices stay; and how the messages are packed into datagrams makes no difference. --/
theorem links_follow (agents : Nat → Option Agent) (is : List Input) (hm : exec step (init agents) is = some m)
    (table : Int → Option String) (rs : List Received) (batches : List Batch)
    (hr : List.Forall₂ (fun r batch => r.Holds batch.bytes) rs batches)
    (hlong : ∀ batch ∈ batches, ∀ msg ∈ batch.messages, Long m.netlink msg) :
    ∃ t, exec step m (rs.map fun r => .receive (fun _ => table) (.ok r)) = some t ∧ t.netlink = m.netlink ∧
      ∀ k, t.agents k = (m.agents k).bind fun a =>
        exec Agent.step a (inbox k ((batches.flatMap Batch.messages).flatMap (lettersFor m.netlink table))) := by
  have hlinked : m.Linked := (always_linked agents is).of_exec hm
  obtain ⟨t, ht, hnetlink, hdispatch⟩ := exec_batches table hlinked hr hlong
  exact ⟨t, ht, hnetlink, dispatch_eq_some hdispatch⟩

/-- A new link, with the index of its interface and its flags. -/
def newLinkOf (index flags : UInt32) : Nlmsg where
  type := 16
  payload := toLE 4 0 ++ (toLE 4 index.toNat ++ (toLE 4 flags.toNat ++ toLE 4 0))
  padding := []
  length_lt := by simp
  length_padding := by simp [align]

/-- A datagram of new links. -/
def newLinks (links : List (UInt32 × UInt32)) (hfits : links.length ≤ 128) : Batch where
  messages := links.map fun p => newLinkOf p.1 p.2
  last := none
  going := fun msg hmsg => by
    obtain ⟨p, -, rfl⟩ := List.mem_map.mp hmsg
    exact (by decide : (16 : UInt16).toNat ∉ finalTypes)
  final := fun _ hp => by cases hp
  fits := by
    have hlength : ∀ links : List (UInt32 × UInt32),
        ((links.map fun p => newLinkOf p.1 p.2).flatMap Nlmsg.padded).length = 32 * links.length := fun links => by
      induction links with
      | nil => rfl
      | cons p links ih =>
        rw [List.map_cons, List.flatMap_cons, List.length_append, ih, Nlmsg.length_padded, List.length_cons]
        simp [newLinkOf, align]
        omega
    rw [hlength]
    unfold sizeofBuf
    omega

theorem newLinks_long (s : Controller) (links : List (UInt32 × UInt32)) (hfits : links.length ≤ 128) :
    ∀ msg ∈ (newLinks links hfits).messages, Long s msg := fun msg hmsg c hc => by
  obtain ⟨p, -, rfl⟩ := List.mem_map.mp hmsg
  obtain ⟨l, -, rfl⟩ := List.mem_map.mp hc
  simp [newLinkOf, ifinfomsgRead]

/-- The result for the first of two agents, the second of which is stopped before a datagram arrives. --/
theorem nics_refine_two :
    let env : PushEnv := { socket := some 5, bind := true }
    let agents : Nat → Option Agent := fun k => if k < 2 then some { name := "eth0" } else none
    let r := Received.ofBytes (newLinks [(2, 1), (3, 1)] (by decide)).bytes
    let calls : List Input := [.start 0 (.flags 3) 2 env env, .start 1 (.flags 3) 3 env env, .stop 1]
    let is := calls ++ [.receive (fun _ x => if x = 2 then some "eth0" else none) (.ok r)]
    let js := trace step (inputs 0) (init agents) is
    ∃ m, exec step (init agents) is = some m ∧ ∃ b, exec Agent.step { name := "eth0" } js = some b ∧
      m.agents 0 = some b ∧ js.flatMap Agent.Input.calls = is.flatMap (asked 0) ∧
      js.flatMap Agent.Input.links = inbox 0 (trace step letters (init agents) is) := by
  intro env agents r calls is js
  obtain ⟨u, hu⟩ : ∃ u, exec step (init agents) calls = some u := ⟨_, rfl⟩
  have hlinked : u.Linked := (always_linked agents calls).of_exec hu
  obtain ⟨m, hm⟩ : ∃ m, u.step (.receive (fun _ x => if x = 2 then some "eth0" else none) (.ok r)) = some m :=
    batch_defined hlinked (Received.holds_ofBytes _) (newLinks_long _ _ _)
  have hexec : exec step (init agents) is = some m := by
    rw [exec_append, hu, Option.bind_some, exec, hm]
    rfl
  refine ⟨m, hexec, nics_refine agents is hexec 0 (fun hmem => ?_) rfl⟩
  rcases List.mem_append.mp hmem with hmem | hmem
  · simp [calls] at hmem
  · cases List.mem_singleton.mp hmem

/-- The result at two messages, once in one datagram and once in two. --/
theorem links_follow_two :
    let env : PushEnv := { socket := some 5, bind := true }
    let agents : Nat → Option Agent := fun k => if k = 0 then some { name := "eth0" } else none
    let table : Int → Option String := fun x => if x = 2 then some "eth0" else none
    let packings : List (List Batch) := [[newLinks [(2, 1), (3, 1)] (by decide)],
      [newLinks [(2, 1)] (by decide), newLinks [(3, 1)] (by decide)]]
    ∃ m, exec step (init agents) [.start 0 (.flags 3) 2 env env] = some m ∧ ∀ batches ∈ packings,
      ∃ t, exec step m ((batches.map fun batch => Received.ofBytes batch.bytes).map fun r =>
          .receive (fun _ => table) (.ok r)) = some t ∧ t.netlink = m.netlink ∧
        ∀ k, t.agents k = (m.agents k).bind fun a =>
          exec Agent.step a (inbox k ((batches.flatMap Batch.messages).flatMap (lettersFor m.netlink table))) := by
  intro env agents table packings
  obtain ⟨m, hm⟩ : ∃ m, exec step (init agents) [.start 0 (.flags 3) 2 env env] = some m := ⟨_, rfl⟩
  refine ⟨m, hm, fun batches hbatches => ?_⟩
  have hnew : ∀ batch ∈ batches, ∃ links hfits, batch = newLinks links hfits := by
    simp only [packings, List.mem_cons, List.not_mem_nil, or_false] at hbatches
    rcases hbatches with rfl | rfl
    · simp only [List.mem_singleton]
      exact fun batch hb => ⟨_, _, hb⟩
    · simp only [List.mem_cons, List.not_mem_nil, or_false]
      rintro batch (hb | hb) <;> exact ⟨_, _, hb⟩
  refine links_follow agents _ hm table _ batches ?_ fun batch hb msg hmsg => ?_
  · rw [List.forall₂_map_left_iff]
    exact List.forall₂_same.mpr fun batch _ => Received.holds_ofBytes _
  · obtain ⟨links, hfits, rfl⟩ := hnew batch hb
    exact newLinks_long _ links hfits msg hmsg

end UdjatNetwork.Nic
