/-
  HahaWeb.Net.Replies — what a server puts on the wires of its connections, over a run.

  `onMessage` adds a text to what its connection has to send; an application may drop what
  is still to be sent when it answers (`setBody` clears the send buffer). A connection is
  armed for reading when it is accepted, after an `onMessage` that wants more, and when all
  is sent; so while it reads, no answer is under way, and what waits to be sent are texts of
  calls that wanted more.

  Proved, of any application that keeps to this (`Answers`) and of any run: the bytes on the
  wire of a connection and those it still has to send are the texts of its calls, in order,
  each whole, every answer among them (`step_told`).
-/

import HahaWeb.Net.Idle

namespace HahaWeb

open Buffer (SysRet)

/-! ## A call of `send` -/

section

variable {σ : Type} {put : σ → SysRet → σ × Int × Bytes} {left : σ → Nat} {data : σ → Bytes}

/-- What a loop takes is what it had in front, whatever the kernel says. -/
theorem sendLoop_takes (hp : Puts put left data) {isBlocked : Bool} : ∀ {rs rest : List SysRet} {errno errno' : Nat}
    {s s' : σ} {len : Int} {out : Bytes}, sendLoop put left isBlocked rs errno s = some (len, errno', s', out, rest) →
    out ++ data s' = data s := by
  have hput : ∀ s r, (put s r).2.2 ++ data (put s r).1 = data s := by
    intro s r
    cases r with
    | fails e => simp [hp.fails]
    | count n =>
      obtain ⟨s', hs, hd⟩ := hp.count s n
      simp [hs, hd]
  intro rs
  induction rs with
  | nil =>
    intro rest errno errno' s s' len out h
    cases h
  | cons r rs ih =>
    intro rest errno errno' s s' len out h
    unfold sendLoop at h
    dsimp only at h
    split at h
    · cases h
      exact hput s r
    · split at h
      · obtain ⟨⟨len1, errno1, s1, out1, rest1⟩, hloop, he⟩ := Option.map_eq_some_iff.mp h
        cases he
        rw [List.append_assoc, ih hloop, hput s r]
      · cases h
        exact hput s r

end

namespace TcpConnection

variable {C : Type} {conn conn' : TcpConnection C} {rs rest : List SysRet} {errno errno' : Nat} {wire : Wire}

theorem sendBuffer_takes {len : Int} (h : conn.sendBuffer rs errno = some (len, errno', conn', wire, rest)) :
    wire.bytes ++ conn'.remaining = conn.remaining := by
  unfold sendBuffer at h
  split at h
  · obtain ⟨⟨len1, errno1, sender, out, rs1⟩, hloop, he⟩ := Option.map_eq_some_iff.mp h
    cases he
    have hout := sendLoop_takes puts_buffer hloop
    simp only [Wire.bytes, List.flatMap_cons, List.flatMap_nil, List.append_nil, remaining, ← List.append_assoc, hout]
    rfl
  · cases h
    rfl

theorem sendFile_takes {len len' : Int} (h : conn.sendFile len rs errno = some (len', errno', conn', wire, rest)) :
    wire.bytes ++ conn'.remaining = conn.remaining := by
  have hlen := conn.sender.readable_length
  unfold sendFile at h
  cases hf : conn.fileSender with
  | none =>
    rw [hf] at h
    cases h
    rfl
  | some file =>
    rw [hf] at h
    dsimp only at h
    split at h
    · rename_i hc
      obtain ⟨⟨len1, errno1, file', out, rs1⟩, hloop, he⟩ := Option.map_eq_some_iff.mp h
      cases he
      have hout := sendLoop_takes puts_file hloop
      have hnil : conn.sender.readable = [] := List.length_eq_zero_iff.mp (by omega)
      simpa [Wire.bytes, remaining, fileRest, hnil, hf] using hout
    · cases h
      rfl

/-- A call of `send` takes what it puts on the wire from the front of what is to be sent. -/
theorem send_takes {status : Status} (h : conn.send rs errno = some (status, errno', conn', wire, rest)) :
    wire.bytes ++ conn'.remaining = conn.remaining := by
  obtain ⟨len1, errno1, conn1, wire1, rs1, len, wire2, h1, h2, rfl, -⟩ := send_parts h
  rw [Wire.bytes, List.flatMap_append, List.append_assoc]
  show Wire.bytes wire1 ++ (Wire.bytes wire2 ++ conn'.remaining) = conn.remaining
  rw [sendFile_takes h2, sendBuffer_takes h1]

/-- A call that reports that it is done has sent all. -/
theorem send_completed (h : conn.send rs errno = some (.completed, errno', conn', wire, rest)) :
    conn'.remaining = [] := by
  obtain ⟨-, -, -, -, -, len, -, -, -, -, hstatus⟩ := send_parts h
  by_contra hne
  have hsend := (sendable_iff conn').mpr hne
  unfold sendStatus at hstatus
  split at hstatus
  · rename_i hdone
    rw [hsend] at hdone
    cases hdone.2
  · split at hstatus
    · cases hstatus
    · split at hstatus <;> cases hstatus

end TcpConnection

namespace TcpServer

variable {C A : Type} {s s' u v : TcpServer C} {c : ConnId} {l : Nat} {fd : Fd} {conn conn' : TcpConnection C}
  {onMessage : App C A} {reply : A → TcpConnection C → Bytes}

/-! ## What is said and what is sent -/

/-- What an application keeps to, whose call adds the text `reply` to what is to be sent. -/
structure Answers (onMessage : App C A) (reply : A → TcpConnection C → Bytes) : Prop where
  keeps : ∀ a conn ms conn', onMessage a conn = .ok (ms, conn') → Keeps conn conn'
  text : ∀ a conn ms conn', onMessage a conn = .ok (ms, conn') → conn.fileRest = [] →
    conn'.remaining = conn.remaining ++ reply a conn ∨ (ms = .ok ∧ conn'.remaining = reply a conn)
  again : ∀ a conn conn', onMessage a conn = .ok (.again, conn') → conn.fileRest = [] → conn'.fileRest = []

inductive Traffic where
  | said (status : MessageStatus) (text : Bytes)
  | sent (bytes : Bytes)
  deriving DecidableEq

/-- The text of a call of `onMessage`, and the bytes that a call of `send` puts on the wire. -/
def traffic (onMessage : App C A) (reply : A → TcpConnection C → Bytes) (s : TcpServer C) :
    Event A → List (ConnId × Traffic)
  | .read l fd _ a rs errno => Option.toList do
    let reg ← (s.loops l).epoll fd
    let conn ← s.conns reg.conn
    let (status, _, conn, _) ← conn.recv rs errno
    if status = .closed ∨ status = .error then none
    else do
      let (ms, _) ← (onMessage a conn).toOption
      some (reg.conn, .said ms (reply a conn))
  | .write l fd _ rs errno => Option.toList do
    let reg ← (s.loops l).epoll fd
    let conn ← s.conns reg.conn
    let (_, _, _, wire, _) ← conn.send rs errno
    some (reg.conn, .sent wire.bytes)
  | _ => []

/-- The texts of a connection's calls, in order. -/
def said (c : ConnId) (ts : List (ConnId × Traffic)) : List (MessageStatus × Bytes) := ts.filterMap fun t =>
  match t.2 with
  | .said status text => if t.1 = c then some (status, text) else none
  | .sent _ => none

/-- The bytes on its wire. -/
def sent (c : ConnId) (ts : List (ConnId × Traffic)) : Bytes := ts.flatMap fun t =>
  match t.2 with
  | .sent bytes => if t.1 = c then bytes else []
  | .said _ _ => []

@[simp] theorem said_append (ts xs : List (ConnId × Traffic)) : said c (ts ++ xs) = said c ts ++ said c xs :=
  List.filterMap_append

@[simp] theorem sent_append (ts xs : List (ConnId × Traffic)) : sent c (ts ++ xs) = sent c ts ++ sent c xs :=
  List.flatMap_append

/-- The traffic of another connection. -/
theorem quiet {xs : List (ConnId × Traffic)} (h : ∀ x ∈ xs, x.1 ≠ c) : said c xs = [] ∧ sent c xs = [] := by
  constructor
  · refine List.filterMap_eq_nil_iff.mpr fun x hx => ?_
    cases hx2 : x.2 with
    | said => simp [h x hx]
    | sent => rfl
  · refine List.flatMap_eq_nil_iff.mpr fun x hx => ?_
    cases hx2 : x.2 with
    | sent => simp [h x hx]
    | said => rfl

/-- A connection that goes on and is armed for reading. -/
def Reading (conn : TcpConnection C) : Prop :=
  conn.disconnected = false ∧ ∃ ch, conn.channel = some ch ∧ ch.events = .epollin

/-- Of the texts said, all answers and some of the others, those `out` were sent and those
    `pending` are still to be sent, or some of both; while the connection reads, no answer is
    under way. -/
structure Told (ts : List (ConnId × Traffic)) (c : ConnId) (conn : TcpConnection C)
    (out pending : List (MessageStatus × Bytes)) : Prop where
  sublist : (out ++ pending).Sublist (said c ts)
  answers : (out ++ pending).filter (·.1 = .ok) = (said c ts).filter (·.1 = .ok)
  bytes : sent c ts ++ conn.remaining = (out ++ pending).flatMap (·.2)
  reading : Reading conn → conn.fileRest = [] ∧ sent c ts = out.flatMap (·.2) ∧ ∀ p ∈ pending, p.1 = .again

variable {ts xs : List (ConnId × Traffic)} {out pending : List (MessageStatus × Bytes)}

/-- Nothing is said or sent. -/
theorem Told.keep (h : Told ts c conn out pending) (hx : said c xs = [] ∧ sent c xs = [])
    (hr : conn'.remaining = conn.remaining) (hf : conn'.fileRest = conn.fileRest)
    (hreading : Reading conn' → Reading conn) :
    Told (ts ++ xs) c conn' out pending where
  sublist := by simpa [hx.1] using h.sublist
  answers := by simpa [hx.1] using h.answers
  bytes := by simpa [hx.2, hr] using h.bytes
  reading hc := by simpa [hx.2, hf] using h.reading (hreading hc)

/-- The connection is called. -/
theorem Told.said {a : A} {ms : MessageStatus} {conn1 conn2 : TcpConnection C} (ha : Answers onMessage reply)
    (h : Told ts c conn out pending) (hc : Reading conn) (hr : conn1.remaining = conn.remaining)
    (hf : conn1.fileRest = conn.fileRest) (hm : onMessage a conn1 = .ok (ms, conn2))
    (hr' : conn'.remaining = conn2.remaining) (hf' : conn'.fileRest = conn2.fileRest)
    (hc' : Reading conn' → ms = .again) :
    ∃ out pending, Told (ts ++ [(c, .said ms (reply a conn1))]) c conn' out pending := by
  obtain ⟨hfile, hout, hpending⟩ := h.reading hc
  rw [← hf] at hfile
  have hsaid : TcpServer.said c [(c, .said ms (reply a conn1))] = [(ms, reply a conn1)] := by simp [TcpServer.said]
  have hsent : sent c [(c, .said ms (reply a conn1))] = [] := rfl
  rcases ha.text a conn1 ms conn2 hm hfile with htext | ⟨rfl, htext⟩
  · refine ⟨out, pending ++ [(ms, reply a conn1)], ?_, ?_, ?_, fun hreading => ?_⟩
    · rw [said_append, hsaid, ← List.append_assoc]
      exact h.sublist.append (List.Sublist.refl _)
    · rw [said_append, hsaid, ← List.append_assoc, List.filter_append, h.answers, List.filter_append]
    · rw [sent_append, hsent, List.append_nil, hr', htext, hr, ← List.append_assoc, h.bytes, ← List.append_assoc]
      simp
    · obtain rfl := hc' hreading
      refine ⟨hf'.trans (ha.again a conn1 conn2 hm hfile), by rw [sent_append, hsent, List.append_nil, hout], ?_⟩
      intro p hp
      rcases List.mem_append.mp hp with hp | hp
      · exact hpending p hp
      · rw [List.mem_singleton.mp hp]
  · -- the answer takes the place of what was to be sent
    have hnone : pending.filter (·.1 = .ok) = [] := List.filter_eq_nil_iff.mpr fun p hp => by simp [hpending p hp]
    refine ⟨out, [(.ok, reply a conn1)], ?_, ?_, ?_, fun hreading => nomatch hc' hreading⟩
    · rw [said_append, hsaid]
      exact ((List.sublist_append_left out pending).trans h.sublist).append (List.Sublist.refl _)
    · rw [said_append, hsaid, List.filter_append, List.filter_append, ← h.answers, List.filter_append, hnone,
        List.append_nil]
    · rw [sent_append, hsent, List.append_nil, hr', htext, hout]
      simp

/-- Some of what is to be sent is. -/
theorem Told.sent {rs rest : List SysRet} {errno errno' : Nat} {status : TcpConnection.Status} {wire : Wire}
    (h : Told ts c conn out pending) {conn1 : TcpConnection C}
    (hs : conn.send rs errno = some (status, errno', conn1, wire, rest)) (hr' : conn'.remaining = conn1.remaining)
    (hf' : conn'.fileRest = conn1.fileRest) (hc' : Reading conn' → status = .completed) :
    Told (ts ++ [(c, .sent wire.bytes)]) c conn' (out ++ pending) [] := by
  have hsaid : TcpServer.said c [(c, .sent wire.bytes)] = [] := rfl
  have hsent : TcpServer.sent c [(c, .sent wire.bytes)] = wire.bytes := by simp [TcpServer.sent]
  have hbytes : TcpServer.sent c (ts ++ [(c, .sent wire.bytes)]) ++ conn'.remaining =
      (out ++ pending).flatMap (·.2) := by
    rw [sent_append, hsent, List.append_assoc, hr', TcpConnection.send_takes hs, h.bytes]
  refine ⟨by simpa [hsaid] using h.sublist, by simpa [hsaid] using h.answers, by rw [hbytes, List.append_nil],
    fun hc => ?_⟩
  obtain rfl := hc' hc
  have hnil := TcpConnection.send_completed hs
  rw [hr', hnil, List.append_nil] at hbytes
  have hfile : conn1.fileRest = [] := (List.append_eq_nil_iff.mp hnil).2
  exact ⟨hf'.trans hfile, hbytes, nofun⟩

/-! ## A step -/

/-- What the server's state tells of the traffic so far. -/
structure Telling (s : TcpServer C) (ts : List (ConnId × Traffic)) : Prop where
  fresh : ∀ c, s.conns c = none → said c ts = [] ∧ sent c ts = []
  told : ∀ c conn, s.conns c = some conn → ∃ out pending, Told ts c conn out pending
  /-- A registration asks for what its channel does. -/
  events : ∀ l fd reg, (s.loops l).epoll fd = some reg → ∃ conn ch, s.conns reg.conn = some conn ∧
    conn.channel = some ch ∧ reg.events = ch.events ∧ (reg.arming = .reported .read → reg.events = .epollin)

/-- A step about one connection. -/
theorem Telling.around (ht : Telling s ts) (hi : s.Inv) (ho : s.Open c l fd) (h : Around c l fd s s')
    (hxs : ∀ x ∈ xs, x.1 = c) (hc : s'.conns c = some conn')
    (htold : ∃ out pending, Told (ts ++ xs) c conn' out pending)
    (hreg : ∀ reg, (s'.loops l).epoll fd = some reg → reg.conn = c ∧ ∃ ch, conn'.channel = some ch ∧
      reg.events = ch.events ∧ reg.arming ≠ .reported .read) : Telling s' (ts ++ xs) where
  fresh c' hc' := by
    have hne : c' ≠ c := fun he => by
      rw [he, hc] at hc'
      cases hc'
    rw [h.conns c' hne] at hc'
    have hquiet : said c' xs = [] ∧ sent c' xs = [] := quiet fun x hx he => hne (he.symm.trans (hxs x hx))
    simpa [hquiet.1, hquiet.2] using ht.fresh c' hc'
  told c' conn1 hconn := by
    by_cases hne : c' = c
    · subst hne
      cases hconn.symm.trans hc
      exact htold
    · rw [h.conns c' hne] at hconn
      obtain ⟨out, pending, hold⟩ := ht.told c' conn1 hconn
      exact ⟨out, pending, hold.keep (quiet fun x hx he => hne (he.symm.trans (hxs x hx))) rfl rfl id⟩
  events l' fd' reg hr := by
    by_cases hat : l' = l ∧ fd' = fd
    · obtain ⟨rfl, rfl⟩ := hat
      obtain ⟨rfl, ch, hch, hev, harm⟩ := hreg reg hr
      exact ⟨conn', ch, hc, hch, hev, fun hread => absurd hread harm⟩
    · have hold : (s.loops l').epoll fd' = some reg := by
        by_cases hl : l' = l
        · subst hl
          rwa [h.epoll fd' fun hfd => hat ⟨rfl, hfd⟩] at hr
        · rwa [h.loops l' hl] at hr
      have hne : reg.conn ≠ c := fun he => hat (ho.unique (he ▸ (hi.epoll l' fd' reg hold).1))
      rw [h.conns _ hne]
      exact ht.events l' fd' reg hold

/-- A loop is changed that registers, or reports, what a channel asks for. -/
theorem Telling.setLoop {loop : EventLoop} (ht : Telling s ts) (hreg : ∀ fd reg, loop.epoll fd = some reg →
    (s.loops l).epoll fd = some reg ∨ ∃ conn ch, s.conns reg.conn = some conn ∧ conn.channel = some ch ∧
      reg.events = ch.events ∧ (reg.arming = .reported .read → reg.events = .epollin)) :
    Telling (s.setLoop l loop) ts where
  fresh := ht.fresh
  told := ht.told
  events l' fd reg hr := by
    by_cases hl : l' = l
    · subst hl
      rw [setLoop_loops_same] at hr
      rcases hreg fd reg hr with hold | hnew
      · exact ht.events l' fd reg hold
      · exact hnew
    · simp only [TcpServer.setLoop, Function.update_of_ne hl] at hr
      exact ht.events l' fd reg hr

/-- The connection is closed. -/
theorem Telling.ends {conn0 : TcpConnection C} (ht : Telling s ts) (hi : s.Inv) (ho : s.Open c l fd)
    (h : Around c l fd s v ∧ v.Ends c l fd ∧ v.conns c = some { conn0 with disconnected := true })
    (hxs : ∀ x ∈ xs, x.1 = c)
    (htold : ∀ conn' : TcpConnection C, conn'.remaining = conn0.remaining → conn'.fileRest = conn0.fileRest →
      ¬ Reading conn' → ∃ out pending, Told (ts ++ xs) c conn' out pending) : Telling v (ts ++ xs) := by
  obtain ⟨haround, hends, hend⟩ := h
  refine ht.around hi ho haround hxs hend (htold _ rfl rfl fun hr => by cases hr.1) fun reg hreg => ?_
  rw [hends.epoll] at hreg
  cases hreg

theorem During.rearm_epoll (h : During s c l fd u) (hc : u.conns c = some conn) (hk : Keeps conn conn')
    (events : Events) : ((u.rearm l c conn' events).loops l).epoll fd = some ⟨c, events, .armed⟩ := by
  obtain ⟨conn0, hc0, hfd, -⟩ := h.isOpen.conn
  cases hc.symm.trans hc0
  rw [TcpServer.rearm, hk.sock, hfd, EventLoop.modChannel]
  rw [setLoop_loops_same]
  show (if ((u.loops l).epoll fd).isSome = true then _ else _ : EventLoop).epoll fd = _
  rw [if_pos h.registered]
  exact Function.update_self _ _ _

/-- The connection is armed. -/
theorem During.telling_rearm (h : During s c l fd u) (ht : Telling s ts) (hi : s.Inv) (ho : s.Open c l fd)
    (htimed : u.Timed c l fd) (hxs : ∀ x ∈ xs, x.1 = c) (hc : u.conns c = some conn) (hk : Keeps conn conn')
    (events : Events) (htold : ∀ conn1 : TcpConnection C, conn1.remaining = conn'.remaining →
      conn1.fileRest = conn'.fileRest → (Reading conn1 → events = .epollin) →
      ∃ out pending, Told (ts ++ xs) c conn1 out pending) :
    Telling (u.rearm l c conn' events) (ts ++ xs) := by
  obtain ⟨haround, -⟩ := h.rearm htimed hc hk events
  obtain ⟨conn0, hc0, -, -, hl⟩ := h.isOpen.conn
  cases hc.symm.trans hc0
  obtain ⟨ch, hch, rfl⟩ := Option.map_eq_some_iff.mp hl
  have hch' : conn'.channel = some ch := hk.channel.trans hch
  refine ht.around hi ho haround hxs (rearm_conns u ch.loop c conn' events) (htold _ rfl rfl ?_) fun reg hreg => ?_
  · intro hr
    obtain ⟨-, ch', hc', hev⟩ := hr
    simp only [hch', Option.map_some, Option.some.injEq] at hc'
    rw [← hev, ← hc']
  · rw [h.rearm_epoll hc hk events] at hreg
    cases hreg
    exact ⟨rfl, { ch with events := events }, by simp [hch'], rfl, nofun⟩

theorem takeEvent_arming {ready : Ready} {reg : Registration} (h : s.takeEvent l fd ready = some (c, u))
    (hreg : (s.loops l).epoll fd = some reg) : reg.arming = .reported ready := by
  by_contra harm
  simp [takeEvent, hreg, harm] at h

/-- What a read callback says of the connection it is given. -/
theorem traffic_read {reg : Registration} {expire : Nat} {a : A} {rs rest : List (Except Nat Bytes)}
    {errno errno' : Nat} {status : TcpConnection.Status} {conn1 : TcpConnection C}
    (hreg : (s.loops l).epoll fd = some reg) (hc : s.conns reg.conn = some conn)
    (hr : conn.recv rs errno = some (status, errno', conn1, rest)) :
    s.traffic onMessage reply (.read l fd expire a rs errno) =
      if status = .closed ∨ status = .error then []
      else ((onMessage a conn1).toOption.map fun r => (reg.conn, .said r.1 (reply a conn1))).toList := by
  simp only [traffic, hreg, hc, hr, bind, Option.bind_some]
  split
  · rfl
  · cases onMessage a conn1 <;> rfl

theorem step_read_told {expire : Nat} {a : A} {rs : List (Except Nat Bytes)} {errno : Nat}
    (ha : Answers onMessage reply) (hi : s.Inv) (ht : Telling s ts)
    (h : s.perform onMessage (.read l fd expire a rs errno) = some s') :
    Telling s' (ts ++ s.traffic onMessage reply (.read l fd expire a rs errno)) := by
  obtain ⟨⟨c, u⟩, htake, h⟩ := Option.bind_eq_some_iff.mp h
  obtain ⟨ho, hd, htimed, hconns, reg, hreg, rfl⟩ := hi.take htake
  obtain ⟨w, hw, htimed', hconns', h⟩ := hd.serve htimed h
  obtain ⟨conn, hconn, hdisc⟩ := ho.exists_conn
  have hc : w.conns reg.conn = some conn := by rw [hconns', hconns, hconn]
  obtain ⟨status, errno', conn1, rest, hr, hcase⟩ := hw.onRecv hc h
  have hkeep := keeps_recv hr
  obtain ⟨recver, hrecv⟩ := TcpConnection.recv_eq hr
  have hsame : conn1.remaining = conn.remaining ∧ conn1.fileRest = conn.fileRest := by
    rw [hrecv]
    exact ⟨rfl, rfl⟩
  -- a callback for reading is reported only where the channel asks for reading
  have hreading : Reading conn := by
    obtain ⟨conn0, ch, hc0, hch, hev, hread⟩ := ht.events l fd reg hreg
    rw [hconn] at hc0
    cases hc0
    exact ⟨hdisc, ch, hch, hev ▸ hread (takeEvent_arming htake hreg)⟩
  obtain ⟨out, pending, htold⟩ := ht.told _ conn hconn
  rw [traffic_read hreg hconn hr]
  rcases hcase with ⟨hs, hclose⟩ | ⟨hs, ms, conn2, hm, rfl⟩
  · rw [if_pos hs]
    refine ht.ends hi ho ((hw.setConn hc hkeep).delTimerAndClose (setConn_conns_same _ _ _) hclose) (by simp) ?_
    intro conn' hrem hfile hnot
    exact ⟨out, pending, htold.keep ⟨rfl, rfl⟩ (hrem.trans hsame.1) (hfile.trans hsame.2) fun hr => absurd hr hnot⟩
  · rw [if_neg hs, hm]
    have hkeep' := hkeep.trans (ha.keeps a conn1 ms conn2 hm)
    refine hw.telling_rearm ht hi ho htimed' (by simp [Except.toOption]) hc hkeep' _ ?_
    intro conn3 hrem hfile hread
    refine htold.said ha hreading hsame.1 hsame.2 hm hrem hfile fun hc3 => ?_
    by_contra hne
    rw [if_neg hne] at hread
    cases hread hc3

theorem step_write_told {expire : Nat} {rs : List SysRet} {errno : Nat} (hi : s.Inv) (ht : Telling s ts)
    (h : s.perform onMessage (.write l fd expire rs errno) = some s') :
    Telling s' (ts ++ s.traffic onMessage reply (.write l fd expire rs errno)) := by
  obtain ⟨⟨c, u⟩, htake, h⟩ := Option.bind_eq_some_iff.mp h
  obtain ⟨ho, hd, htimed, hconns, reg, hreg, rfl⟩ := hi.take htake
  obtain ⟨w, hw, htimed', hconns', h⟩ := hd.serve htimed h
  obtain ⟨conn, hconn, -⟩ := ho.exists_conn
  have hc : w.conns reg.conn = some conn := by rw [hconns', hconns, hconn]
  obtain ⟨status, errno', conn1, wire, rest, hs, hcase⟩ := hw.onSend hc h
  have hkeep := keeps_send hs
  obtain ⟨out, pending, htold⟩ := ht.told _ conn hconn
  have htraffic : s.traffic onMessage reply (.write l fd expire rs errno) = [(reg.conn, .sent wire.bytes)] := by
    simp only [traffic, hreg, hconn, hs, bind, Option.bind_some]
    rfl
  have hxs : ∀ x ∈ [(reg.conn, Traffic.sent wire.bytes)], x.1 = reg.conn := by simp
  rw [htraffic]
  rcases hcase with ⟨-, rfl⟩ | ⟨rfl, -, rfl⟩ | ⟨-, -, hclose⟩
  · refine hw.telling_rearm ht hi ho htimed' hxs hc hkeep _ fun conn2 hrem hfile hread => ?_
    exact ⟨_, _, htold.sent hs hrem hfile fun hr => nomatch hread hr⟩
  · refine hw.telling_rearm ht hi ho htimed' hxs hc hkeep _ fun conn2 hrem hfile _ => ?_
    exact ⟨_, _, htold.sent hs hrem hfile fun _ => rfl⟩
  · refine ht.ends hi ho ((hw.setConn hc hkeep).delTimerAndClose (setConn_conns_same _ _ _) hclose) hxs ?_
    intro conn2 hrem hfile hnot
    exact ⟨_, _, htold.sent hs hrem hfile fun hr => absurd hr hnot⟩

/-- A connection is closed, with nothing said or sent. -/
theorem Telling.close (ht : Telling s ts) (hi : s.Inv) (ho : s.Open c l fd) {conn0 : TcpConnection C}
    (hc : s.conns c = some conn0)
    (h : Around c l fd s v ∧ v.Ends c l fd ∧ v.conns c = some { conn0 with disconnected := true }) : Telling v ts := by
  obtain ⟨out, pending, htold⟩ := ht.told c conn0 hc
  have hend : Telling v (ts ++ []) := ht.ends hi ho h nofun fun conn' hrem hfile hnot =>
    ⟨out, pending, htold.keep ⟨rfl, rfl⟩ hrem hfile fun hr => absurd hr hnot⟩
  rwa [List.append_nil] at hend

theorem accept_told {sock : Socket} (ht : Telling s ts) (hi : s.Inv) (hc : s.conns c = none) :
    Telling (s.handleServerAccept c sock) ts where
  fresh c' hc' := by
    have hne : c' ≠ c := fun he => by
      rw [he, accept_conns_same] at hc'
      cases hc'
    exact ht.fresh c' (accept_conns hne ▸ hc')
  told c' conn hconn := by
    by_cases hne : c' = c
    · subst hne
      rw [accept_conns_same] at hconn
      cases hconn
      obtain ⟨hsaid, hsent⟩ := ht.fresh c' hc
      exact ⟨[], [], by simp [hsaid], by simp [hsaid], by rw [hsent]; rfl, fun _ => ⟨rfl, hsent, nofun⟩⟩
    · exact ht.told c' conn (accept_conns hne ▸ hconn)
  events l fd reg hreg := by
    rw [accept_loops] at hreg
    have hne : reg.conn ≠ c := fun he => by
      obtain ⟨conn, hconn, -⟩ := (hi.epoll l fd reg hreg).1.conn
      rw [he, hc] at hconn
      cases hconn
    rw [accept_conns hne]
    exact ht.events l fd reg hreg

/-- Only timers are changed. -/
theorem Telling.setTimers (ht : Telling s ts) (l : Nat) (timers : TimerHeap ConnId) :
    Telling (s.setLoop l { s.loops l with timers := timers }) ts :=
  ht.setLoop fun _ _ hreg => .inl hreg

theorem onConnect_told {ch : Channel} {expire : Nat} (ht : Telling u ts) (hlock : u.lock c = some conn)
    (hch : conn.channel = some ch) (h : u.onConnect c expire = some v) : Telling v ts := by
  simp only [onConnect, hlock, hch, bind, Option.bind_some] at h
  obtain ⟨timers, -, rfl⟩ := onLoop_timers h
  have hadd : Telling (u.setLoop ch.loop ((u.loops ch.loop).addChannel conn.sock.fd c ch.events)) ts := by
    refine ht.setLoop fun fd reg hreg => ?_
    unfold EventLoop.addChannel at hreg
    split at hreg
    · exact .inl hreg
    · by_cases hfd : fd = conn.sock.fd
      · subst hfd
        simp only [Function.update_self, Option.some.injEq] at hreg
        subst hreg
        exact .inr ⟨conn, ch, lock_conns hlock, hch, rfl, fun hread => by cases hread⟩
      · simp only [Function.update_of_ne hfd] at hreg
        exact .inl hreg
  exact hadd.setTimers ch.loop timers

theorem step_task_told {expire : Nat} (hi : s.Inv) (ht : Telling s ts)
    (h : s.perform onMessage (.task l expire) = some s') : Telling s' ts := by
  cases hq : (s.loops l).tasks with
  | nil =>
    simp only [perform, hq] at h
    cases h
  | cons c tasks =>
    simp only [perform, hq] at h
    obtain ⟨fd, ho⟩ := hi.tasks c l (by rw [hq]; exact List.mem_cons_self)
    obtain ⟨conn, hconn, rfl, -, hl⟩ := ho.conn
    obtain ⟨ch, hch, rfl⟩ := Option.map_eq_some_iff.mp hl
    have hlock : (s.setLoop ch.loop { s.loops ch.loop with tasks := tasks }).lock c = some conn :=
      lock_of_entry hconn (hi.entry c _ _ ho)
    have htaken : Telling (s.setLoop ch.loop { s.loops ch.loop with tasks := tasks }) ts :=
      ht.setLoop fun _ _ hreg => .inl hreg
    exact onConnect_told htaken hlock hch h

theorem step_report_told {ready : Ready} (ht : Telling s ts)
    (h : s.perform onMessage (.report l fd ready) = some s') : Telling s' ts := by
  obtain ⟨reg, hreg, h⟩ := Option.bind_eq_some_iff.mp h
  by_cases hr : reg.Reports ready
  · rw [if_pos hr] at h
    cases h
    refine ht.setLoop fun fd' reg' hreg' => ?_
    by_cases hfd : fd' = fd
    · subst hfd
      simp only [EventLoop.setArming, Function.update_self, hreg, Option.map_some, Option.some.injEq] at hreg'
      subst hreg'
      obtain ⟨conn, ch, hconn, hch, hev, -⟩ := ht.events l fd' reg hreg
      refine .inr ⟨conn, ch, hconn, hch, hev, fun hread => ?_⟩
      cases hread
      rcases hr.2 with hc | ⟨-, hin⟩ | ⟨hc, -⟩
      · cases hc
      · exact hin
      · cases hc
    · simp only [EventLoop.setArming, Function.update_of_ne hfd] at hreg'
      exact .inl hreg'
  · rw [if_neg hr] at h
    cases h

theorem step_timeout_told {now rounds : Nat} : ∀ {s s' : TcpServer C}, s.Inv → Telling s ts →
    s.handleTimeout l now rounds = some s' → Telling s' ts := by
  induction rounds with
  | zero =>
    intro s s' _ ht h
    cases h
    exact ht
  | succ rounds ih =>
    intro s s' hi ht h
    rcases handleTimeout_cases h with ⟨rfl, -⟩ | ⟨timer, n, s1, hn, htop, hdue, h1, h⟩
    · exact ht
    · cases hn
      obtain ⟨-, hi1⟩ := Round.inv hi htop hdue h1
      refine ih hi1 ?_ h
      obtain ⟨hf, hnot⟩ := hi.timers l timer.fd timer (TimerHeap.top_timer (hi.indexed l) htop)
      obtain ⟨timers, -, rfl⟩ := onLoop_timers h1
      refine Telling.setTimers ?_ l timers
      by_cases ha : s.Alive timer.cb
      · have ho := ha.open hf
        obtain ⟨conn, hconn, -⟩ := ha
        exact ht.close hi ho hconn ((hi.during ho (hnot l)).close hconn)
      · rwa [close_gone ha]

/-- What every step tells. -/
theorem step_told {e : Event A} (ha : Answers onMessage reply) (hi : s.Inv) (ht : Telling s ts)
    (h : s.Step onMessage e s') : Telling s' (ts ++ s.traffic onMessage reply e) := by
  obtain ⟨hadmits, h⟩ := h
  cases e with
  | read l fd expire a rs errno => exact step_read_told ha hi ht h
  | write l fd expire rs errno => exact step_write_told hi ht h
  | accept c sock =>
    cases h
    show Telling _ (ts ++ [])
    rw [List.append_nil]
    exact accept_told ht hi hadmits.1
  | task l expire =>
    show Telling _ (ts ++ [])
    rw [List.append_nil]
    exact step_task_told hi ht h
  | report l fd ready =>
    show Telling _ (ts ++ [])
    rw [List.append_nil]
    exact step_report_told ht h
  | hangup l fd =>
    obtain ⟨⟨c, u⟩, htake, h⟩ := Option.map_eq_some_iff.mp h
    obtain ⟨ho, hd, -, hconns, -⟩ := hi.take htake
    cases h
    obtain ⟨conn, hconn, -⟩ := ho.exists_conn
    show Telling _ (ts ++ [])
    rw [List.append_nil]
    exact ht.close hi ho hconn (hd.close (hconns ▸ hconn))
  | timeout l now =>
    show Telling _ (ts ++ [])
    rw [List.append_nil]
    exact step_timeout_told hi ht h

theorem run_told {n : Nat} {es : List (Event A)} (ha : Answers onMessage reply)
    (h : Labelled.Run (Step onMessage) (start n) es s) :
    Telling s (observed onMessage (traffic onMessage reply) (start n) es) := by
  have hrun := run_observed (f := traffic onMessage reply) (I := fun s ts => s.Inv ∧ Telling s ts) h
    ⟨inv_start n, ⟨fun _ _ => ⟨rfl, rfl⟩, nofun, nofun⟩⟩
    fun s ts e s' hs hstep => ⟨(step_effect ha.keeps hs.1 hstep).inv, step_told ha hs.1 hs.2 hstep⟩
  exact hrun.2

end TcpServer

end HahaWeb
