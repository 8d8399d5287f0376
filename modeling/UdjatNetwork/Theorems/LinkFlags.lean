import UdjatNetwork.Theorems.Links

/-! # The flags that agents have

An agent that listens has the flags of the last message about its interface, whatever is told of other interfaces in
between. -/

namespace UdjatNetwork.Nic
open Machine Monitor NetLink

variable {m : Monitor} {k : Nat} {a b : Agent} {table : Int → Option String}

/-- The flags that a message tells of the interface with an index. -/
def flagsOf (index : Int) (msg : Nlmsg) : Option (BitVec 32) :=
  let ifi := Ifinfomsg.ofBytes msg.payload
  if msg.type.toNat ∈ [RTM_NEWLINK, RTM_DELLINK] ∧ ifi.index = index then some ifi.flags else none

/-- The agent of an interface, which knows its index. -/
def Agent.At (index : Int) (name : String) (a : Agent) : Prop := a.index = index ∧ a.name = name

/-- What a message tells of an interface: whether its link is new or removed, and its flags. -/
structure Report where
  added : Bool
  flags : BitVec 32

/-- The report that a message is of the interface with an index. -/
def reportOf (index : Int) (msg : Nlmsg) : Option Report :=
  let ifi := Ifinfomsg.ofBytes msg.payload
  if msg.type.toNat ∈ [RTM_NEWLINK, RTM_DELLINK] ∧ ifi.index = index then
    some ⟨decide (msg.type.toNat = RTM_NEWLINK), ifi.flags⟩
  else none

theorem reportOf_flags (index : Int) (msg : Nlmsg) : (reportOf index msg).map Report.flags = flagsOf index msg := by
  unfold reportOf flagsOf
  dsimp only
  split_ifs <;> rfl

/-- The agent after a report of its interface. -/
def Agent.report (a : Agent) (r : Report) : Agent :=
  { a with flags := r.flags, netlink := r.added && (a.netlink || decide (a.flags ≠ r.flags)) }

/-! ### One message -/

theorem report_at {index : Int} {n : String} (ha : a.At index n) (r : Report) : (a.report r).At index n := ha

/-- A report that is repeated changes nothing more. -/
theorem report_twice (a : Agent) (r : Report) : (a.report r).report r = a.report r := by
  have hnetlink : (r.added && ((a.report r).netlink || decide ((a.report r).flags ≠ r.flags))) = (a.report r).netlink := by
    have hflags : decide ((a.report r).flags ≠ r.flags) = false := decide_eq_false (not_not.mpr rfl)
    rw [hflags, Bool.or_false]
    change (r.added && (r.added && _)) = (r.added && _)
    rw [← Bool.and_assoc, Bool.and_self]
  rw [Agent.report, hnetlink]
  rfl

theorem newLink_report {ifi : Ifinfomsg} (htable : ∀ x, table x = some a.name ↔ x = a.index) :
    (a.newLink ifi (table ifi.index)).1 = if ifi.index = a.index then a.report ⟨true, ifi.flags⟩ else a := by
  unfold Agent.newLink Agent.report
  by_cases hname : table ifi.index = some a.name
  · have hindex : ifi.index = a.index := (htable _).mp hname
    rw [if_neg (not_not.mpr hname), if_pos hindex, hindex]
    dsimp only
    split_ifs with hflags
    · simp [hflags]
    · simp [not_not.mp hflags]
  · rw [if_pos hname, if_neg fun he => hname ((htable _).mpr he)]

theorem delLink_report (a : Agent) (ifi : Ifinfomsg) :
    (a.delLink ifi).1 = if ifi.index = a.index then a.report ⟨false, ifi.flags⟩ else a := by
  unfold Agent.delLink Agent.report
  by_cases hindex : a.index = ifi.index
  · rw [if_neg (not_not.mpr hindex), if_pos hindex.symm]
    split_ifs with hflags
    · rfl
    · obtain ⟨hflags, hnetlink⟩ := not_or.mp hflags
      have hnetlink : false = a.netlink := (eq_false_of_ne_true hnetlink).symm
      rw [← not_not.mp hflags, Bool.false_and, hnetlink]
  · rw [if_pos hindex, if_neg (Ne.symm hindex)]

/-- A message that an agent takes is a report to it, unless it is of another interface. -/
theorem input_report {index : Int} {n : String} {l : Listener} {msg : Nlmsg} {type : Nat}
    (htype : type ∈ [RTM_NEWLINK, RTM_DELLINK]) (hl : l = listener l.object type) (hmsg : l.message = msg.type)
    (htable : ∀ x, table x = some n ↔ x = index) (ha : a.At index n) (hb : a.step (input l msg.payload table) = some b) :
    b = (reportOf index msg).elim a a.report := by
  obtain ⟨rfl, rfl⟩ := ha
  have hmethod : l.method = type := congrArg Listener.method hl
  have hcases : type = RTM_NEWLINK ∨ type = RTM_DELLINK := by simpa using htype
  have hvalue : msg.type.toNat = type := by
    rw [← hmsg, hl]
    rcases hcases with rfl | rfl <;> rfl
  have hreport : (reportOf a.index msg).elim a a.report = if (Ifinfomsg.ofBytes msg.payload).index = a.index then
      a.report ⟨decide (type = RTM_NEWLINK), (Ifinfomsg.ofBytes msg.payload).flags⟩ else a := by
    rw [reportOf, hvalue]
    by_cases hindex : (Ifinfomsg.ofBytes msg.payload).index = a.index
    · rw [if_pos ⟨htype, hindex⟩, if_pos hindex, Option.elim_some]
    · rw [if_neg fun h => hindex h.2, if_neg hindex, Option.elim_none]
  rw [hreport]
  rcases hcases with rfl | rfl
  · rw [input, if_pos hmethod] at hb
    cases hb
    exact newLink_report htable
  · rw [input, if_neg (by rw [hmethod]; decide)] at hb
    cases hb
    exact delLink_report a _

/-- Several listeners of an agent for one message are as good as one. -/
theorem exec_report {index : Int} {n : String} {js : List Agent.Input} {o : Option Report}
    (hjs : ∀ j ∈ js, ∀ c d : Agent, c.At index n → c.step j = some d → d = o.elim c c.report)
    (ha : a.At index n) (hb : exec Agent.step a js = some b) (hne : js ≠ []) : b = o.elim a a.report := by
  have hat : ∀ c : Agent, c.At index n → (o.elim c c.report).At index n := fun c hc => by
    cases o with
    | none => exact hc
    | some r => exact report_at hc r
  have htwice : ∀ c : Agent, o.elim (o.elim c c.report) (o.elim c c.report).report = o.elim c c.report := fun c => by
    cases o with
    | none => rfl
    | some r => exact report_twice c r
  induction js generalizing a with
  | nil => exact absurd rfl hne
  | cons j js ih =>
    obtain ⟨c, hc, hb⟩ := exec_cons_eq_some.mp hb
    obtain ⟨hj, hjs⟩ := List.forall_mem_cons.mp hjs
    obtain rfl := hj a c ha hc
    cases js with
    | nil => exact (Option.some.inj hb).symm
    | cons j' js' => rw [ih hjs (hat a ha) hb (List.cons_ne_nil _ _), htwice]

/-- The agent has both of its listeners. -/
def Monitor.Started (m : Monitor) (k : Nat) : Prop :=
  ∀ type ∈ [RTM_NEWLINK, RTM_DELLINK], listener k type ∈ m.netlink.listeners

theorem started_of_listeners (h : m.netlink.listeners = [listener k RTM_NEWLINK, listener k RTM_DELLINK]) : m.Started k :=
  fun type htype => by
    rw [h]
    exact List.mem_map_of_mem (f := listener k) htype

theorem message_report {index : Int} {n : String} {msg : Nlmsg} (hm : m.Linked) (hk : m.Started k)
    (htable : ∀ x, table x = some n ↔ x = index) (ha : a.At index n)
    (hb : exec Agent.step a (inbox k (lettersFor m.netlink table msg)) = some b) :
    b = (reportOf index msg).elim a a.report := by
  have hcall : ∀ p ∈ lettersFor m.netlink table msg, ∃ l ∈ m.netlink.listeners, l.message = msg.type ∧
      p = (l.object, input l msg.payload table) := fun p hp => by
    obtain ⟨c, hc, rfl⟩ := List.mem_map.mp hp
    obtain ⟨l, hl, rfl⟩ := List.mem_map.mp hc
    obtain ⟨hl, hmsg⟩ := List.mem_filter.mp hl
    exact ⟨l, hl, of_decide_eq_true hmsg, rfl⟩
  by_cases hnil : inbox k (lettersFor m.netlink table msg) = []
  · -- Without a call the message is of another type, since both listeners are there.
    have hnone : reportOf index msg = none := by
      refine if_neg fun h => ?_
      have hl := hk _ h.1
      have hmem : input (listener k msg.type.toNat) msg.payload table ∈ inbox k (lettersFor m.netlink table msg) := by
        refine List.mem_map.mpr ⟨(k, _), List.mem_filter.mpr ⟨List.mem_map.mpr ⟨(_, msg.payload), List.mem_map.mpr
          ⟨_, List.mem_filter.mpr ⟨hl, ?_⟩, rfl⟩, rfl⟩, decide_eq_true rfl⟩, rfl⟩
        exact decide_eq_true (UInt16.ofNat_toNat)
      rw [hnil] at hmem
      cases hmem
    rw [hnil] at hb
    rw [hnone, Option.elim_none]
    exact (Option.some.inj hb).symm
  · refine exec_report (fun j hj c d hc hd => ?_) ha hb hnil
    obtain ⟨p, hp, rfl⟩ := List.mem_map.mp hj
    obtain ⟨l, hl, hmsg, rfl⟩ := hcall p (List.mem_filter.mp hp).1
    obtain ⟨-, type, htype, hlistener⟩ := hm l hl
    exact input_report htype hlistener hmsg htable hc hd

/-! ### Datagrams -/

/-- Messages take an agent through their reports of its interface. -/
theorem exec_reports {index : Int} {n : String} (hm : m.Linked) (hk : m.Started k)
    (htable : ∀ x, table x = some n ↔ x = index) (ha : a.At index n) (msgs : List Nlmsg) :
    exec Agent.step a (inbox k (msgs.flatMap (lettersFor m.netlink table))) =
      some ((msgs.filterMap (reportOf index)).foldl Agent.report a) := by
  induction msgs generalizing a with
  | nil => rfl
  | cons msg msgs ih =>
    obtain ⟨b, hb⟩ := exec_total step_total a (inbox k (lettersFor m.netlink table msg))
    have hmsg := message_report hm hk htable ha hb
    rw [List.flatMap_cons, inbox_append, exec_append, hb, Option.bind_some, List.filterMap_cons, hmsg]
    cases reportOf index msg with
    | none => exact ih ha
    | some r => exact ih (report_at ha r)

/-- A started agent that knows its index, after datagrams of whole messages. -/
theorem exec_datagrams (hm : m.Linked) (hk : m.Started k) (ha : m.agents k = some a)
    (htable : ∀ index, table index = some a.name ↔ index = a.index) {rs : List Received} {batches : List Batch}
    (hr : List.Forall₂ (fun r batch => r.Holds batch.bytes) rs batches)
    (hlong : ∀ batch ∈ batches, ∀ msg ∈ batch.messages, Long m.netlink msg) :
    ∃ t, exec step m (rs.map fun r => .receive (fun _ => table) (.ok r)) = some t ∧ t.agents k =
      some (((batches.flatMap Batch.messages).filterMap (reportOf a.index)).foldl Agent.report a) := by
  obtain ⟨t, ht, -, hdispatch⟩ := exec_batches table hm hr hlong
  have hrun := dispatch_eq_some hdispatch k
  rw [ha, Option.bind_some, exec_reports hm hk htable ⟨rfl, rfl⟩] at hrun
  exact ⟨t, ht, hrun⟩

theorem reports_index (a : Agent) (rs : List Report) : (rs.foldl Agent.report a).index = a.index := by
  induction rs generalizing a with
  | nil => rfl
  | cons r rs ih => exact ih (a.report r)

theorem reports_flags (a : Agent) (rs : List Report) :
    (rs.foldl Agent.report a).flags = (rs.map Report.flags).getLastD a.flags := by
  induction rs generalizing a with
  | nil => rfl
  | cons r rs ih => rw [List.foldl_cons, ih, List.map_cons, List.getLastD_cons]; rfl

/-- In every state that a run reaches, datagrams of whole messages, long enough for the listeners of their type, leave an
    agent that has both of its listeners and knows the index of its interface, while the names of the indices stay, with
    the flags of the last message of a new or a removed link of that interface, or those that it had, whatever other
    messages come in between, and however they are packed. --/
theorem flags_last (agents : Nat → Option Agent) (is : List Input) (hm : exec step (init agents) is = some m)
    (k : Nat) (hk : m.Started k) (ha : m.agents k = some a) (table : Int → Option String)
    (htable : ∀ index, table index = some a.name ↔ index = a.index) (rs : List Received) (batches : List Batch)
    (hr : List.Forall₂ (fun r batch => r.Holds batch.bytes) rs batches)
    (hlong : ∀ batch ∈ batches, ∀ msg ∈ batch.messages, Long m.netlink msg) :
    ∃ t b, exec step m (rs.map fun r => .receive (fun _ => table) (.ok r)) = some t ∧ t.agents k = some b ∧
      b.index = a.index ∧
      b.flags = ((batches.flatMap Batch.messages).filterMap (flagsOf a.index)).getLastD a.flags := by
  obtain ⟨t, ht, hb⟩ := exec_datagrams ((always_linked agents is).of_exec hm) hk ha htable hr hlong
  refine ⟨t, _, ht, hb, reports_index a _, ?_⟩
  rw [reports_flags, List.map_filterMap]
  exact congrArg (fun f => (((batches.flatMap Batch.messages).filterMap f).getLastD a.flags))
    (funext fun msg => reportOf_flags a.index msg)

/-- The result at two messages of the interface of the agent, with one of another interface behind them. --/
theorem flags_last_three :
    let env : PushEnv := { socket := some 5, bind := true }
    let agents : Nat → Option Agent := fun k => if k = 0 then some { name := "eth0" } else none
    let table : Int → Option String := fun x => if x = 2 then some "eth0" else none
    let batch := newLinks [(2, 1), (2, 65), (3, 1)] (by decide)
    ∃ m a, exec step (init agents) [.start 0 (.flags 3) 2 env env] = some m ∧ m.agents 0 = some a ∧
      ∃ t b, exec step m ([Received.ofBytes batch.bytes].map fun r => .receive (fun _ => table) (.ok r)) = some t ∧
        t.agents 0 = some b ∧ b.index = a.index ∧
        b.flags = (([batch].flatMap Batch.messages).filterMap (flagsOf a.index)).getLastD a.flags := by
  intro env agents table batch
  obtain ⟨m, hm, hlisteners, ha⟩ : ∃ m, exec step (init agents) [.start 0 (.flags 3) 2 env env] = some m ∧
      m.netlink.listeners = [listener 0 RTM_NEWLINK, listener 0 RTM_DELLINK] ∧
      m.agents 0 = some { name := "eth0", index := 2, exist := true, flags := 3 } := ⟨_, rfl, rfl, rfl⟩
  have hk : m.Started 0 := started_of_listeners hlisteners
  refine ⟨m, _, hm, ha, flags_last agents _ hm 0 hk ha table (fun index => ?_) _ [batch] ?_ ?_⟩
  · by_cases hindex : index = 2 <;> simp [table, hindex]
  · exact .cons (Received.holds_ofBytes _) .nil
  · intro b hb msg hmsg
    rw [List.mem_singleton.mp hb] at hmsg
    exact newLinks_long _ _ _ msg hmsg

end UdjatNetwork.Nic
