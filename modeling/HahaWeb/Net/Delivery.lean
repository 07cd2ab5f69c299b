/-
  HahaWeb.Net.Delivery — what `TcpConnection::send` puts on the wire, over any number of
  calls.

  `remaining` is what the connection still has to send: the readable bytes of its send
  buffer, and the rest of its file. Proved: on a connection that does not block, the wire
  and what remains are the response at every moment, and a call's status says which of
  the two ran out (`delivery`). A file goes past TLS: the bytes of a connection with an
  `SslSocket` are all given to `SSL_write` exactly when no file is to be sent
  (`sealed_iff`).
-/

import HahaWeb.Library.Labelled
import HahaWeb.Net.TcpConnection

namespace HahaWeb

open Buffer (SysRet)

/-! ## A loop that sends -/

/-- A sender of the bytes `data`, from whose front each call of `put` takes some. -/
structure Puts {σ : Type} (put : σ → SysRet → σ × Int × Bytes) (left : σ → Nat) (data : σ → Bytes) : Prop where
  left_eq : ∀ s, left s = (data s).length
  fails : ∀ s e, put s (.fails e) = (s, -1, [])
  count : ∀ s n, ∃ s', put s (.count n) = (s', ((min n (left s) : Nat) : Int), (data s).take n) ∧
    data s' = (data s).drop n

/-- The last result, if it is an error, with the `errno` it leaves. -/
def failsLast (rs : List SysRet) (e : Nat) : Prop := rs.getLast? = some (.fails e)

variable {σ : Type} {put : σ → SysRet → σ × Int × Bytes} {left : σ → Nat} {data : σ → Bytes}

/-- A loop that does not block ends when nothing is left, or with an error. -/
theorem sendLoop_spec (hp : Puts put left data) : ∀ {rs rest : List SysRet} {errno errno' : Nat} {s s' : σ} {len : Int}
    {out : Bytes}, data s ≠ [] → (∀ r ∈ rs, r ≠ .count 0) →
    sendLoop put left false rs errno s = some (len, errno', s', out, rest) →
    out ++ data s' = data s ∧ ∃ used, rs = used ++ rest ∧ used ≠ [] ∧
      ((0 < len ∧ data s' = []) ∨ (len = -1 ∧ data s' ≠ [] ∧ failsLast used errno')) := by
  intro rs
  induction rs with
  | nil => intro rest errno errno' s s' len out _ _ h; cases h
  | cons r rs ih =>
    intro rest errno errno' s s' len out hne hr h
    cases r with
    | fails e =>
      simp only [sendLoop, hp.fails] at h
      rw [if_pos (by omega)] at h
      cases h
      exact ⟨rfl, [.fails _], rfl, by simp, .inr ⟨rfl, hne, rfl⟩⟩
    | count n =>
      obtain ⟨s1, hput, hdata⟩ := hp.count s n
      have hn : 0 < n := Nat.pos_of_ne_zero fun h0 => hr _ List.mem_cons_self (by rw [h0])
      have hlen := hp.left_eq s
      have hpos : 0 < (data s).length := List.length_pos_iff.mpr hne
      simp only [sendLoop, hput] at h
      rw [if_neg (by omega)] at h
      by_cases hleft : 0 < left s1
      · rw [if_pos (by simpa using hleft)] at h
        obtain ⟨⟨len2, errno2, s2, out2, rest2⟩, hloop, he⟩ := Option.map_eq_some_iff.mp h
        cases he
        have hne1 : data s1 ≠ [] := List.length_pos_iff.mp (hp.left_eq s1 ▸ hleft)
        obtain ⟨hout, used, rfl, hused, hend⟩ := ih hne1 (fun r hm => hr r (List.mem_cons_of_mem _ hm)) hloop
        refine ⟨?_, .count n :: used, rfl, by simp, ?_⟩
        · rw [List.append_assoc, hout, hdata, List.take_append_drop]
        · rcases hend with hdone | ⟨h1, h2, h3⟩
          · exact .inl hdone
          · refine .inr ⟨h1, h2, ?_⟩
            rw [failsLast, List.getLast?_cons_of_ne_nil hused]
            exact h3
      · rw [if_neg (by simpa using hleft)] at h
        cases h
        have hnil : data s' = [] := List.length_eq_zero_iff.mp (by rw [← hp.left_eq]; omega)
        refine ⟨?_, [.count n], rfl, by simp, .inl ⟨by omega, hnil⟩⟩
        rw [hdata, List.take_append_drop]

/-- A loop looks at the results it uses only. -/
theorem sendLoop_used {isBlocked : Bool} : ∀ {rs rest : List SysRet} {errno errno' : Nat} {s s' : σ} {len : Int}
    {out : Bytes},
    sendLoop put left isBlocked rs errno s = some (len, errno', s', out, rest) → ∃ used, rs = used ++ rest ∧
      ∀ more, sendLoop put left isBlocked (used ++ more) errno s = some (len, errno', s', out, more) := by
  intro rs
  induction rs with
  | nil => intro rest errno errno' s s' len out h; cases h
  | cons r rs ih =>
    intro rest errno errno' s s' len out h
    simp only [sendLoop] at h
    by_cases hlen : (put s r).2.1 ≤ 0
    · rw [if_pos hlen] at h
      cases h
      exact ⟨[r], rfl, fun more => by simp only [List.singleton_append, sendLoop, if_pos hlen]⟩
    · rw [if_neg hlen] at h
      by_cases hmore : (!isBlocked && decide (0 < left (put s r).1)) = true
      · rw [if_pos hmore] at h
        obtain ⟨⟨len2, errno2, s2, out2, rest2⟩, hloop, he⟩ := Option.map_eq_some_iff.mp h
        cases he
        obtain ⟨used, rfl, hused⟩ := ih hloop
        exact ⟨r :: used, rfl,
          fun more => by simp only [List.cons_append, sendLoop, if_neg hlen, if_pos hmore, hused more]; rfl⟩
      · rw [if_neg hmore] at h
        cases h
        exact ⟨[r], rfl, fun more => by simp only [List.singleton_append, sendLoop, if_neg hlen, if_neg hmore]⟩

/-- A loop that is refused at last comes back, then or before. -/
theorem sendLoop_returns (hp : Puts put left data) (isBlocked : Bool) (e : Nat) : ∀ (rs : List SysRet)
    (errno : Nat) (s : σ),
    ∃ len errno' s' out rest,
    sendLoop put left isBlocked (rs ++ [.fails e]) errno s = some (len, errno', s', out, rest) ∧
      (len = -1 ∨ ∃ rs', rest = rs' ++ [.fails e]) := by
  intro rs
  induction rs with
  | nil =>
    intro errno s
    exact ⟨-1, e, s, [], [], by simp [sendLoop, hp.fails, errnoAfter], .inl rfl⟩
  | cons r rs ih =>
    intro errno s
    simp only [List.cons_append, sendLoop]
    split
    · exact ⟨_, _, _, _, _, rfl, .inr ⟨rs, rfl⟩⟩
    · split
      · obtain ⟨len, errno', s', out, rest, he, hr⟩ := ih (errnoAfter errno r) (put s r).1
        rw [he]
        exact ⟨_, _, _, _, _, rfl, hr⟩
      · exact ⟨_, _, _, _, _, rfl, .inr ⟨rs, rfl⟩⟩

/-- A kernel that takes all there is. -/
theorem sendLoop_whole (hp : Puts put left data) (isBlocked : Bool) {s : σ} (hne : data s ≠ []) (rest : List SysRet)
    (errno : Nat) : ∃ len s', 0 < len ∧ data s' = [] ∧
      sendLoop put left isBlocked (.count (data s).length :: rest) errno s = some (len, errno, s', data s, rest) := by
  obtain ⟨s', hput, hdata⟩ := hp.count s (data s).length
  have hpos : 0 < (data s).length := List.length_pos_iff.mpr hne
  have hnil : data s' = [] := by rw [hdata, List.drop_length]
  have hleft : left s' = 0 := by rw [hp.left_eq, hnil, List.length_nil]
  rw [hp.left_eq, Nat.min_self, List.take_length] at hput
  refine ⟨(data s).length, s', by omega, hnil, ?_⟩
  simp only [sendLoop, hput, hleft, errnoAfter]
  rw [if_neg (by omega), if_neg (by simp)]

theorem puts_buffer : Puts Buffer.writeFd Buffer.readableBytes Buffer.readable := by
  refine ⟨fun b => b.readable_length.symm, fun _ _ => rfl, fun b n => ?_⟩
  obtain ⟨hr, ho⟩ := b.readable_writeFd n
  rw [← b.readable_length, ← List.drop_eq_drop_min] at hr
  rw [← b.readable_length, ← List.take_eq_take_min] at ho
  exact ⟨(b.writeFd (.count n)).1, Prod.ext rfl (Prod.ext rfl ho), hr⟩

/-- The part of the file that was not sent. -/
def FileSendStream.rest (s : FileSendStream) : Bytes := s.content.drop s.sended

theorem puts_file : Puts FileSendStream.put FileSendStream.remain FileSendStream.rest := by
  have hleft : ∀ s : FileSendStream, s.remain = s.rest.length := by
    intro s
    have := s.remain_eq
    rw [FileSendStream.rest, List.length_drop]
    omega
  refine ⟨hleft, fun _ _ => rfl, fun s n => ⟨(s.put (.count n)).1, ?_, ?_⟩⟩
  · refine Prod.ext rfl (Prod.ext rfl ?_)
    show s.rest.take (min n s.remain) = s.rest.take n
    rw [hleft, ← List.take_eq_take_min]
  · show s.content.drop (s.sended + min n s.remain) = s.rest.drop n
    rw [hleft, ← List.drop_drop, ← FileSendStream.rest, ← List.drop_eq_drop_min]

namespace TcpConnection

variable {C : Type}

/-! ## One call -/

/-- What is still to be sent of the file. -/
def fileRest (conn : TcpConnection C) : Bytes := (conn.fileSender.map FileSendStream.rest).getD []

/-- What is still to be sent: first of the buffer, then of the file. -/
def remaining (conn : TcpConnection C) : Bytes := conn.sender.readable ++ conn.fileRest

theorem fileSendable_iff (conn : TcpConnection C) : conn.fileSendable = true ↔ conn.fileRest ≠ [] := by
  unfold fileSendable fileRest FileSendStream.sendable
  cases conn.fileSender with
  | none => simp
  | some file =>
    rw [Option.any_some, decide_eq_true_eq, puts_file.left_eq, List.length_pos_iff]
    rfl

theorem sendable_iff (conn : TcpConnection C) : conn.sendable = true ↔ conn.remaining ≠ [] := by
  rw [sendable, Bool.or_eq_true, fileSendable_iff, decide_eq_true_eq, ← conn.sender.readable_length,
    List.length_pos_iff,
    remaining]
  simp only [ne_eq, List.append_eq_nil_iff, not_and_or]
  exact or_comm

/-- A call of `send`: `errno` before it, what the kernel returned in it, its status, and what
    it put on the wire. -/
structure Call where
  errno : Nat
  results : List SysRet
  status : Status
  wire : Wire

/-- The call that was made on `conn` and left `conn'`. -/
def Called (conn : TcpConnection C) (c : Call) (conn' : TcpConnection C) : Prop :=
  ∃ errno', conn.send c.results c.errno = some (c.status, errno', conn', c.wire, [])

/-- A call made while something is to be sent, to a kernel that takes at least a byte or fails. -/
def Sends (conn : TcpConnection C) (c : Call) (conn' : TcpConnection C) : Prop :=
  conn.sendable = true ∧ (∀ r ∈ c.results, r ≠ .count 0) ∧ Called conn c conn'

/-- What a call does to what remains, and what its status says. -/
structure Delivers (conn : TcpConnection C) (c : Call) (conn' : TcpConnection C) : Prop where
  sock : conn'.sock = conn.sock
  wire : c.wire.bytes ++ conn'.remaining = conn.remaining
  completed : c.status = .completed ↔ conn'.remaining = []
  again : c.status = .again ↔ conn'.remaining ≠ [] ∧ failsLast c.results EAGAIN
  failed : c.status = .error ∨ c.status = .closed → ∃ e, e ≠ EAGAIN ∧ failsLast c.results e

/-- A call is two: of the buffer, and of the file. -/
theorem send_parts {conn conn' : TcpConnection C} {rs rest : List SysRet} {errno errno' : Nat} {status : Status}
    {wire : Wire}
    (h : conn.send rs errno = some (status, errno', conn', wire, rest)) : ∃ len1 errno1 conn1 wire1 rs1 len wire2,
      conn.sendBuffer rs errno = some (len1, errno1, conn1, wire1, rs1) ∧
        conn1.sendFile len1 rs1 errno1 = some (len, errno', conn', wire2, rest) ∧ wire = wire1 ++ wire2 ∧
          status = sendStatus len errno' conn'.sendable := by
  unfold send at h
  obtain ⟨⟨len1, errno1, conn1, wire1, rs1⟩, h1, h⟩ := Option.bind_eq_some_iff.mp h
  obtain ⟨⟨len, errno2, conn2, wire2, rs2⟩, h2, h⟩ := Option.bind_eq_some_iff.mp h
  cases h
  exact ⟨len1, errno1, conn1, wire1, rs1, len, wire2, h1, h2, rfl, rfl⟩

/-- A call changes what is still to be sent, and nothing else. -/
theorem send_eq {conn conn' : TcpConnection C} {rs rest : List SysRet} {errno errno' : Nat} {status : Status}
    {wire : Wire}
    (h : conn.send rs errno = some (status, errno', conn', wire, rest)) :
    ∃ sender file, conn' = { conn with sender := sender, fileSender := file } := by
  obtain ⟨len1, errno1, conn1, wire1, rs1, len, wire2, h1, h2, -, -⟩ := send_parts h
  obtain ⟨sender, rfl⟩ : ∃ sender, conn1 = { conn with sender := sender } := by
    unfold sendBuffer at h1
    split at h1
    · obtain ⟨r, -, hr⟩ := Option.map_eq_some_iff.mp h1
      cases hr
      exact ⟨_, rfl⟩
    · cases h1
      exact ⟨_, rfl⟩
  unfold sendFile at h2
  split at h2
  · split at h2
    · obtain ⟨r, -, hr⟩ := Option.map_eq_some_iff.mp h2
      cases hr
      exact ⟨_, _, rfl⟩
    · cases h2
      exact ⟨_, _, rfl⟩
  · cases h2
    exact ⟨_, _, rfl⟩

/-- The part of the buffer: it is empty, or sent in full, or refused. -/
theorem sendBuffer_spec {conn conn' : TcpConnection C} (hb : conn.sock.isBlocked = false) {rs rest : List SysRet}
    (hr : ∀ r ∈ rs, r ≠ .count 0) {errno errno' : Nat} {len : Int} {wire : Wire}
    (h : conn.sendBuffer rs errno = some (len, errno', conn', wire, rest)) :
    (conn.sender.readable = [] ∧ len = -10086 ∧ conn' = conn ∧ wire = [] ∧ rest = rs) ∨
      (∃ sender out used, conn.sender.readable ≠ [] ∧ conn' = { conn with sender := sender } ∧
        wire = [(conn.sock.transport, out)] ∧ out ++ sender.readable = conn.sender.readable ∧ rs = used ++ rest ∧
        used ≠ [] ∧ ((0 < len ∧ sender.readable = []) ∨
          (len = -1 ∧ sender.readable ≠ [] ∧ failsLast used errno'))) := by
  have hlen := conn.sender.readable_length
  unfold sendBuffer at h
  split at h
  · rename_i hpos
    obtain ⟨⟨len1, errno1, sender, out, rs1⟩, hloop, he⟩ := Option.map_eq_some_iff.mp h
    cases he
    rw [Socket.send, hb] at hloop
    have hne : conn.sender.readable ≠ [] := List.length_pos_iff.mp (hlen ▸ hpos)
    obtain ⟨hout, used, hused, hnil, hend⟩ := sendLoop_spec puts_buffer hne hr hloop
    exact .inr ⟨sender, out, used, hne, rfl, rfl, hout, hused, hnil, hend⟩
  · rename_i hpos
    cases h
    exact .inl ⟨List.length_eq_zero_iff.mp (by omega), rfl, rfl, rfl, rfl⟩

/-- The part of the file: it is not sent, or sent in full, or refused. -/
theorem sendFile_spec {conn conn' : TcpConnection C} (hb : conn.sock.isBlocked = false) {rs rest : List SysRet}
    (hr : ∀ r ∈ rs, r ≠ .count 0) {errno errno' : Nat} {len len' : Int} {wire : Wire}
    (h : conn.sendFile len rs errno = some (len', errno', conn', wire, rest)) :
    (¬ (conn.fileSendable = true ∧ conn.sender.readable = [] ∧ (0 < len ∨ len = -10086)) ∧ len' = len ∧ errno' = errno ∧
        conn' = conn ∧ wire = [] ∧ rest = rs) ∨
      (∃ file file' out used, conn.fileSender = some file ∧ conn.sender.readable = [] ∧
        conn' = { conn with fileSender := some file' } ∧ wire = [(.sendfile, out)] ∧ out ++ file'.rest = file.rest ∧
        rs = used ++ rest ∧ used ≠ [] ∧
        ((0 < len' ∧ file'.rest = []) ∨ (len' = -1 ∧ file'.rest ≠ [] ∧ failsLast used errno'))) := by
  have hlen := conn.sender.readable_length
  unfold sendFile at h
  unfold fileSendable
  cases hf : conn.fileSender with
  | none =>
    rw [hf] at h
    cases h
    exact .inl ⟨by simp, rfl, rfl, rfl, rfl, rfl⟩
  | some file =>
    rw [hf] at h
    dsimp only at h
    split at h
    · rename_i hc
      obtain ⟨⟨len1, errno1, file', out, rs1⟩, hloop, he⟩ := Option.map_eq_some_iff.mp h
      cases he
      rw [FileSendStream.send, hb] at hloop
      have hsend : file.sendable = true := hc.1
      rw [FileSendStream.sendable, decide_eq_true_eq, puts_file.left_eq, List.length_pos_iff] at hsend
      obtain ⟨hout, used, hused, hnil, hend⟩ := sendLoop_spec puts_file hsend hr hloop
      exact .inr ⟨file, file', out, used, rfl, List.length_eq_zero_iff.mp (by omega), rfl, rfl, hout, hused, hnil, hend⟩
    · rename_i hc
      cases h
      refine .inl ⟨fun hd => hc ⟨hd.1, ?_, hd.2.2⟩, rfl, rfl, rfl, rfl, rfl⟩
      rw [← hlen, hd.2.1]
      rfl

/-- The status says which of the two ran out: what remains, or the kernel's patience. -/
theorem status_spec {conn : TcpConnection C} {len : Int} {errno : Nat} {used : List SysRet}
    (h : (0 < len ∧ conn.remaining = []) ∨ (len = -1 ∧ conn.remaining ≠ [] ∧ failsLast used errno)) :
    (sendStatus len errno conn.sendable = .completed ↔ conn.remaining = []) ∧
      (sendStatus len errno conn.sendable = .again ↔ conn.remaining ≠ [] ∧ failsLast used EAGAIN) ∧
      (sendStatus len errno conn.sendable = .error ∨ sendStatus len errno conn.sendable = .closed →
        ∃ e, e ≠ EAGAIN ∧ failsLast used e) := by
  have hs := conn.sendable_iff
  rcases h with ⟨hlen, hnil⟩ | ⟨hlen, hne, hlast⟩
  · have hstop : conn.sendable = false := by
      rw [← Bool.not_eq_true, hs]
      exact fun hn => hn hnil
    rw [sendStatus, if_pos ⟨hlen, hstop⟩]
    exact ⟨by simp [hnil], by simp [hnil], by simp⟩
  · have hgo : conn.sendable = true := hs.mpr hne
    rw [sendStatus, if_neg (by omega), hgo]
    by_cases he : errno = EAGAIN
    · rw [if_pos ⟨by omega, he, rfl⟩]
      exact ⟨by simp [hne], by simp [hne, ← he, hlast], by simp⟩
    · have hagain : ¬ failsLast used EAGAIN := by
        intro hlast'
        rw [failsLast, hlast] at hlast'
        exact he (SysRet.fails.inj (Option.some.inj hlast'))
      rw [if_neg (fun hc => he hc.2.1), if_neg (by omega)]
      exact ⟨by simp [hne], by simp [hagain], fun _ => ⟨errno, he, hlast⟩⟩

theorem failsLast_append {rs used : List SysRet} {e : Nat} (hne : used ≠ []) : failsLast (rs ++ used) e ↔
    failsLast used e := by
  rw [failsLast, failsLast, List.getLast?_append_of_ne_nil _ hne]

/-- One call. -/
theorem send_delivers {conn conn' : TcpConnection C} {c : Call} (hb : conn.sock.isBlocked = false)
    (h : Sends conn c conn') : Delivers conn c conn' := by
  obtain ⟨hsend, hr, errno', hcall⟩ := h
  rw [sendable_iff] at hsend
  obtain ⟨len1, errno1, conn1, wire1, rs1, len, wire2, h1, h2, hwire, hstatus⟩ := send_parts hcall
  -- the status follows from the last length and what remains
  have key : ∀ used, (∀ e, failsLast used e ↔ failsLast c.results e) → conn'.sock = conn.sock →
      c.wire.bytes ++ conn'.remaining = conn.remaining →
      ((0 < len ∧ conn'.remaining = []) ∨ (len = -1 ∧ conn'.remaining ≠ [] ∧ failsLast used errno')) →
      Delivers conn c conn' := by
    intro used hlast hsock hbytes hend
    obtain ⟨hc, ha, hf⟩ := status_spec hend
    rw [← hstatus] at hc ha hf
    refine ⟨hsock, hbytes, hc, ?_, fun h => ?_⟩
    · rw [ha, hlast]
    · obtain ⟨e, he, hfails⟩ := hf h
      exact ⟨e, he, (hlast e).mp hfails⟩
  rcases sendBuffer_spec hb hr h1 with ⟨hempty, rfl, rfl, rfl, rfl⟩ |
    ⟨sender, out, used, hne, rfl, rfl, hout, hused, hnil, hend⟩
  · -- nothing is in the buffer, so there is a file
    rcases sendFile_spec hb hr h2 with ⟨hno, -, -, -, -, -⟩ |
      ⟨file, file', out, used, hfile, -, rfl, rfl, hout, hused, hnil, hend⟩
    · rw [remaining, hempty, List.nil_append, ← fileSendable_iff] at hsend
      exact absurd ⟨hsend, hempty, .inr rfl⟩ hno
    · apply key used
      · rw [hused, List.append_nil]
        exact fun _ => Iff.rfl
      · rfl
      · rw [hwire]
        simp [remaining, fileRest, hempty, hfile, Wire.bytes, hout]
      · simpa [remaining, fileRest, hempty] using hend
  · have hr1 : ∀ r ∈ rs1, r ≠ .count 0 := fun r hm => hr r (hused ▸ List.mem_append_right _ hm)
    rcases @sendFile_spec C { conn with sender := sender } _ hb _ _ hr1 _ _ _ _ _ h2
      with ⟨hno, rfl, rfl, rfl, rfl, rfl⟩ |
      ⟨file, file', out2, used2, hfile, hdone, rfl, rfl, hout2, hused2, hnil2, hend2⟩
    · -- the buffer's part is the whole call
      apply key used
      · rw [hused, List.append_nil]
        exact fun _ => Iff.rfl
      · rfl
      · rw [hwire, remaining, remaining, ← hout]
        simp [Wire.bytes, fileRest]
      · rcases hend with ⟨hlen, hd⟩ | ⟨hlen, hd, hlast⟩
        · have hrest : ({ conn with sender := sender } : TcpConnection C).fileRest = [] := by
            by_contra hf
            exact hno ⟨(fileSendable_iff _).mpr hf, hd, .inl hlen⟩
          exact .inl ⟨hlen, by rw [remaining, hrest, List.append_nil]; exact hd⟩
        · exact .inr ⟨hlen, by simp [remaining, hd], hlast⟩
    · apply key used2
      · intro e
        rw [hused, hused2, List.append_nil]
        exact (failsLast_append hnil2).symm
      · rfl
      · have hd : sender.readable = [] := hdone
        have hf : conn.fileSender = some file := hfile
        rw [hwire, remaining, remaining, ← hout, hd]
        simp [Wire.bytes, fileRest, hf, hout2]
      · have hd : sender.readable = [] := hdone
        simpa [remaining, fileRest, hd] using hend2

/-! ## A run -/

/-- The bytes that calls put on the wire. -/
def wireBytes (calls : List Call) : Bytes := calls.flatMap fun c => c.wire.bytes

theorem sends_run {conn conn' : TcpConnection C} {calls : List Call} (h : Labelled.Run Sends conn calls conn') :
    conn.sock.isBlocked = false → conn'.sock = conn.sock ∧ wireBytes calls ++ conn'.remaining = conn.remaining := by
  induction h with
  | nil => exact fun _ => ⟨rfl, rfl⟩
  | @cons a b d c calls hs _ ih =>
    intro hb
    have hd := send_delivers hb hs
    obtain ⟨hsock, hbytes⟩ := ih (by rw [hd.sock, hb])
    refine ⟨hsock.trans hd.sock, ?_⟩
    have hcons : wireBytes (c :: calls) = c.wire.bytes ++ wireBytes calls := rfl
    rw [hcons, List.append_assoc, hbytes, hd.wire]

theorem sendBuffer_used {conn conn' : TcpConnection C} {rs rest : List SysRet} {errno errno' : Nat} {len : Int}
    {wire : Wire}
    (h : conn.sendBuffer rs errno = some (len, errno', conn', wire, rest)) :
    ∃ used, rs = used ++ rest ∧ ∀ more,
    conn.sendBuffer (used ++ more) errno = some (len, errno', conn', wire, more) := by
  unfold sendBuffer at h ⊢
  split at h
  · rename_i hpos
    obtain ⟨⟨len1, errno1, sender, out, rs1⟩, hloop, he⟩ := Option.map_eq_some_iff.mp h
    cases he
    obtain ⟨used, hrs, hused⟩ := sendLoop_used hloop
    refine ⟨used, hrs, fun more => ?_⟩
    rw [if_pos hpos, Socket.send, hused more]
    rfl
  · rename_i hpos
    cases h
    exact ⟨[], rfl, fun more => by rw [if_neg hpos, List.nil_append]⟩

theorem sendFile_used {conn conn' : TcpConnection C} {rs rest : List SysRet} {errno errno' : Nat} {len len' : Int}
    {wire : Wire}
    (h : conn.sendFile len rs errno = some (len', errno', conn', wire, rest)) :
    ∃ used, rs = used ++ rest ∧ ∀ more,
    conn.sendFile len (used ++ more) errno = some (len', errno', conn', wire, more) := by
  unfold sendFile at h ⊢
  cases hf : conn.fileSender with
  | none =>
    rw [hf] at h
    cases h
    exact ⟨[], rfl, fun more => rfl⟩
  | some file =>
    rw [hf] at h
    dsimp only at h ⊢
    split at h
    · rename_i hc
      obtain ⟨⟨len1, errno1, file', out, rs1⟩, hloop, he⟩ := Option.map_eq_some_iff.mp h
      cases he
      obtain ⟨used, hrs, hused⟩ := sendLoop_used hloop
      refine ⟨used, hrs, fun more => ?_⟩
      rw [if_pos hc, FileSendStream.send, hused more]
      rfl
    · rename_i hc
      cases h
      exact ⟨[], rfl, fun more => by rw [if_neg hc, List.nil_append]⟩

/-- A call looks at the results it uses only. -/
theorem send_used {conn conn' : TcpConnection C} {rs rest : List SysRet} {errno errno' : Nat} {status : Status}
    {wire : Wire}
    (h : conn.send rs errno = some (status, errno', conn', wire, rest)) :
    ∃ used, rs = used ++ rest ∧ conn.send used errno = some (status, errno', conn', wire, []) := by
  obtain ⟨len1, errno1, conn1, wire1, rs1, len, wire2, h1, h2, rfl, rfl⟩ := send_parts h
  obtain ⟨used1, rfl, hused1⟩ := sendBuffer_used h1
  obtain ⟨used2, rfl, hused2⟩ := sendFile_used h2
  refine ⟨used1 ++ used2, by rw [List.append_assoc], ?_⟩
  have h2' := hused2 []
  rw [List.append_nil] at h2'
  simp only [send, hused1 used2, h2', Option.bind_eq_bind, Option.bind_some]

/-- A call comes back when the kernel refuses to take more, or before. -/
theorem send_returns (conn : TcpConnection C) (rs : List SysRet) (e errno : Nat) :
    ∃ status errno' conn' wire rest, conn.send (rs ++ [.fails e]) errno = some (status, errno', conn', wire, rest) := by
  -- what is left of the results after the buffer is enough for the file
  have hfile : ∀ (conn1 : TcpConnection C) (len : Int) (rs1 : List SysRet) (errno1 : Nat),
      (len = -1 ∨ ∃ rs', rs1 = rs' ++ [.fails e]) → ∃ p, conn1.sendFile len rs1 errno1 = some p := by
    intro conn1 len rs1 errno1 hleft
    unfold sendFile
    cases conn1.fileSender with
    | none => exact ⟨_, rfl⟩
    | some file =>
      dsimp only
      split
      · rename_i hc
        rcases hleft with hlen | ⟨rs', rfl⟩
        · omega
        · obtain ⟨_, _, _, _, _, hloop, -⟩ := sendLoop_returns puts_file conn1.sock.isBlocked e rs' errno1 file
          rw [FileSendStream.send, hloop]
          exact ⟨_, rfl⟩
      · exact ⟨_, rfl⟩
  have hbuffer : ∃ len errno1 conn1 wire1 rs1, conn.sendBuffer (rs ++ [.fails e]) errno =
    some (len, errno1, conn1, wire1, rs1) ∧
      (len = -1 ∨ ∃ rs', rs1 = rs' ++ [.fails e]) := by
    unfold sendBuffer
    split
    · obtain ⟨_, _, _, _, _, hloop, hleft⟩ := sendLoop_returns puts_buffer conn.sock.isBlocked e rs errno conn.sender
      rw [Socket.send, hloop]
      exact ⟨_, _, _, _, _, rfl, hleft⟩
    · exact ⟨_, _, _, _, _, rfl, .inr ⟨rs, rfl⟩⟩
  obtain ⟨len, errno1, conn1, wire1, rs1, h1, hleft⟩ := hbuffer
  obtain ⟨⟨len2, errno2, conn2, wire2, rs2⟩, h2⟩ := hfile conn1 len rs1 errno1 hleft
  exact ⟨_, _, _, _, _, by simp only [send, h1, h2, Option.bind_eq_bind, Option.bind_some]; rfl⟩

/-- The calls of a run deliver the bytes `text` one after the other: at every moment the wire
    is a prefix of it, and the status of each call says how far it came. -/
structure Delivery (text : Bytes) (calls : List Call) : Prop where
  wire : wireBytes calls <+: text
  status : ∀ before c after, calls = before ++ c :: after →
    (c.status = .completed ↔ wireBytes (before ++ [c]) = text) ∧
      (c.status = .again ↔ wireBytes (before ++ [c]) ≠ text ∧ failsLast c.results EAGAIN) ∧
      (c.status = .error ∨ c.status = .closed → ∃ e, e ≠ EAGAIN ∧ failsLast c.results e)

theorem run_delivery {conn conn' : TcpConnection C} {calls : List Call} (hb : conn.sock.isBlocked = false)
    (h : Labelled.Run Sends conn calls conn') : Delivery conn.remaining calls := by
  refine ⟨?_, fun before c after hsplit => ?_⟩
  · obtain ⟨-, hbytes⟩ := sends_run h hb
    exact ⟨_, hbytes⟩
  · subst hsplit
    obtain ⟨mid, h1, h2⟩ := h.split
    cases h2 with
    | @cons _ mid' _ _ _ hs _ =>
      obtain ⟨hms, hbytes⟩ := sends_run h1 hb
      have hd := send_delivers (by rw [hms, hb]) hs
      have hw : wireBytes (before ++ [c]) ++ mid'.remaining = conn.remaining := by
        rw [← hbytes, ← hd.wire]
        simp [wireBytes]
      have hnil : mid'.remaining = [] ↔ wireBytes (before ++ [c]) = conn.remaining := by
        rw [← hw]
        simp
      exact ⟨hd.completed.trans hnil, by rw [hd.again, ne_eq, hnil], hd.failed⟩

/-- A response of a buffer and a file is delivered, over any number of calls. While something
    is to be sent the next call comes back, at the latest when the kernel refuses. -/
theorem delivery {conn conn' : TcpConnection C} {file : Option Bytes} {calls : List Call}
    (hsock : conn.sock.isBlocked = false ∧ conn.sock.ssl = false) (hfile : conn.fileSender = file.map .ofFile)
    (h : Labelled.Run Sends conn calls conn') :
    Delivery (conn.sender.readable ++ file.getD []) calls ∧
      ∀ (rs : List SysRet) (errno : Nat), conn'.sendable = true → (∀ r ∈ rs, r ≠ .count 0) →
        ∃ c conn'', Sends conn' c conn'' ∧ c.errno = errno ∧ c.results <+: rs ++ [.fails EAGAIN] := by
  have htext : conn.remaining = conn.sender.readable ++ file.getD [] := by
    rw [remaining, fileRest, hfile]
    cases file <;> rfl
  refine ⟨htext ▸ run_delivery hsock.1 h, fun rs errno hsend hr => ?_⟩
  obtain ⟨status, errno', conn'', wire, rest, hcall⟩ := conn'.send_returns rs EAGAIN errno
  obtain ⟨used, hrs, hcall'⟩ := send_used hcall
  have hpre : used <+: rs ++ [.fails EAGAIN] := ⟨rest, hrs.symm⟩
  refine ⟨⟨errno, used, status, wire⟩, conn'', ⟨hsend, fun r hm => ?_, errno', hcall'⟩, rfl, hpre⟩
  rcases List.mem_append.mp (hpre.subset hm) with hm | hm
  · exact hr r hm
  · rw [List.mem_singleton.mp hm]
    simp

/-- The text "ab" in the send buffer and "c" in the file. -/
def answering (ssl : Bool) : TcpConnection Unit :=
  setFileStream { new ⟨5, false, ssl⟩ with sender := (Buffer.new 2).append (lit "ab") } (lit "c")

def twoCalls : List Call :=
  [⟨0, [.count 1, .fails 11], .again, [(.write, lit "a")]⟩,
    ⟨0, [.count 5, .count 1], .completed, [(.write, lit "b"), (.sendfile, lit "c")]⟩]

theorem delivery_abc : ∃ conn', Labelled.Run Sends (answering false) twoCalls conn' ∧ Delivery
    (lit "abc") twoCalls := by
  have h : Labelled.Run Sends (answering false) twoCalls _ :=
    .cons ⟨rfl, by decide, 11, rfl⟩ (.cons ⟨rfl, by decide, 0, rfl⟩ (.nil _))
  have hfile : (answering false).fileSender = (some (lit "c")).map .ofFile := rfl
  exact ⟨_, h, (delivery ⟨rfl, rfl⟩ hfile h).1⟩

/-! ## TLS -/

/-- No byte that calls put on the wire went past TLS. -/
def Sealed (calls : List Call) : Prop := ∀ c ∈ calls, ∀ p ∈ c.wire, p.2 ≠ [] → p.1 = .sslWrite

/-- A call without a file gives its bytes to the function of the socket. -/
theorem called_sealed {conn conn' : TcpConnection C} {c : Call} (hssl : conn.sock.ssl = true)
    (hf : conn.fileSendable = false) (h : Called conn c conn') :
    (∀ p ∈ c.wire, p.1 = .sslWrite) ∧ conn'.sock = conn.sock ∧ conn'.fileSendable = false := by
  obtain ⟨errno', hcall⟩ := h
  obtain ⟨len1, errno1, conn1, wire1, rs1, len, wire2, h1, h2, hwire, -⟩ := send_parts hcall
  have hfirst : (∀ p ∈ wire1, p.1 = .sslWrite) ∧ conn1.sock = conn.sock ∧ conn1.fileSender = conn.fileSender := by
    unfold sendBuffer at h1
    split at h1
    · obtain ⟨_, -, he⟩ := Option.map_eq_some_iff.mp h1
      cases he
      refine ⟨fun p hp => ?_, rfl, rfl⟩
      rw [List.mem_singleton.mp hp]
      simp [Socket.transport, hssl]
    · cases h1
      exact ⟨by simp, rfl, rfl⟩
  have hsecond : wire2 = [] ∧ conn' = conn1 := by
    unfold sendFile at h2
    rw [hfirst.2.2] at h2
    unfold fileSendable at hf
    cases hfile : conn.fileSender with
    | none =>
      rw [hfile] at h2
      cases h2
      exact ⟨rfl, rfl⟩
    | some file =>
      rw [hfile] at h2 hf
      dsimp only at h2
      rw [Option.any_some] at hf
      rw [if_neg (by rw [hf]; simp)] at h2
      cases h2
      exact ⟨rfl, rfl⟩
  obtain ⟨rfl, rfl⟩ := hsecond
  rw [hwire, List.append_nil]
  exact ⟨hfirst.1, hfirst.2.1, by unfold fileSendable at hf ⊢; rw [hfirst.2.2, hf]⟩

/-- A file that is sent is sent by `sendfile`. -/
theorem file_bypasses {conn : TcpConnection C} (hf : conn.fileSendable = true) :
    ∃ c conn', Called conn c conn' ∧ ∃ p ∈ c.wire, p.2 ≠ [] ∧ p.1 = .sendfile := by
  have hrest := (fileSendable_iff conn).mp hf
  obtain ⟨file, hfile⟩ : ∃ file, conn.fileSender = some file := by
    unfold fileSendable at hf
    cases h : conn.fileSender with
    | none =>
      rw [h] at hf
      cases hf
    | some file => exact ⟨file, rfl⟩
  have hne : file.rest ≠ [] := by
    rw [fileRest, hfile] at hrest
    exact hrest
  have hsend : file.sendable = true := by
    rw [FileSendStream.sendable, decide_eq_true_eq, puts_file.left_eq]
    exact List.length_pos_iff.mpr hne
  -- the file, once the buffer is empty
  have hsecond : ∀ (conn1 : TcpConnection C) (len : Int), conn1.fileSender = some file → conn1.sender.readable = [] →
      (0 < len ∨ len = -10086) → ∃ len' conn2, conn1.sendFile len [.count file.rest.length] 0 =
        some (len', 0, conn2, [(.sendfile, file.rest)], []) := by
    intro conn1 len hfile1 hdone hlen
    obtain ⟨len', file', -, -, hloop⟩ := sendLoop_whole puts_file conn1.sock.isBlocked hne [] 0
    have hzero : conn1.sender.readableBytes = 0 := by rw [← Buffer.readable_length, hdone, List.length_nil]
    refine ⟨len', { conn1 with fileSender := some file' }, ?_⟩
    simp only [sendFile, hfile1]
    rw [if_pos ⟨hsend, hzero, hlen⟩, FileSendStream.send, hloop]
    rfl
  have hfirst : ∃ rs len1 conn1 wire1, conn.sendBuffer (rs ++ [.count file.rest.length]) 0 =
      some (len1, 0, conn1, wire1, [.count file.rest.length]) ∧ conn1.fileSender = some file ∧
        conn1.sender.readable = [] ∧
        (0 < len1 ∨ len1 = -10086) := by
    have hlen := conn.sender.readable_length
    unfold sendBuffer
    by_cases hempty : conn.sender.readable = []
    · rw [hempty, List.length_nil] at hlen
      refine ⟨[], -10086, conn, [], ?_, hfile, hempty, .inr rfl⟩
      rw [if_neg (by omega), List.nil_append]
    · obtain ⟨len1, sender, hpos, hnil, hloop⟩ :=
        sendLoop_whole puts_buffer conn.sock.isBlocked hempty [.count file.rest.length] 0
      have hlt := List.length_pos_iff.mpr hempty
      refine ⟨[.count conn.sender.readable.length], len1, { conn with sender := sender },
        [(conn.sock.transport, conn.sender.readable)], ?_, hfile, hnil, .inl hpos⟩
      rw [if_pos (by omega), Socket.send, List.singleton_append, hloop]
      rfl
  obtain ⟨rs, len1, conn1, wire1, h1, hfile1, hnil, hlen1⟩ := hfirst
  obtain ⟨len', conn2, h2⟩ := hsecond conn1 len1 hfile1 hnil hlen1
  have hcall : conn.send (rs ++ [.count file.rest.length]) 0 =
      some (sendStatus len' 0 conn2.sendable, 0, conn2, wire1 ++ [(.sendfile, file.rest)], []) := by
    simp only [send, h1, h2, Option.bind_eq_bind, Option.bind_some]
  exact ⟨⟨0, _, _, _⟩, conn2, ⟨0, hcall⟩, _, List.mem_append_right _ List.mem_cons_self, hne, rfl⟩

/-- What a connection with an `SslSocket` sends is sealed, whatever the kernel does, exactly
    when no byte of a file is to be sent. -/
theorem sealed_iff {conn : TcpConnection C} (hssl : conn.sock.ssl = true) :
    (∀ calls conn', Labelled.Run Called conn calls conn' → Sealed calls) ↔ conn.fileSendable = false := by
  constructor
  · intro h
    rw [← Bool.not_eq_true]
    intro hf
    obtain ⟨c, conn', hcall, p, hp, hne, hraw⟩ := file_bypasses hf
    have hs := h [c] conn' (.cons hcall (.nil _)) c List.mem_cons_self p hp hne
    rw [hraw] at hs
    cases hs
  · intro hf calls conn' h
    induction h with
    | nil => exact fun c hc => absurd hc List.not_mem_nil
    | cons hcall _ ih =>
      obtain ⟨hwire, hsock, hf'⟩ := called_sealed hssl hf hcall
      intro c hc
      rcases List.mem_cons.mp hc with rfl | hc
      · exact fun p hp _ => hwire p hp
      · exact ih (hsock ▸ hssl) hf' c hc

/-- The text "ab" in the send buffer of a connection with TLS, sent in two calls. -/
theorem sealed_ab : ∃ calls conn',
    Labelled.Run Called
      ({ new ⟨5, false, true⟩ with sender := (Buffer.new 2).append (lit "ab") } : TcpConnection Unit) calls conn' ∧
      (calls.flatMap (·.wire)).map (·.2) = [lit "a", lit "b"] ∧ Sealed calls := by
  have h : Labelled.Run Called
      ({ new ⟨5, false, true⟩ with sender := (Buffer.new 2).append (lit "ab") } : TcpConnection Unit)
      [⟨0, [.count 1, .fails 11], .again, [(.sslWrite, lit "a")]⟩,
        ⟨0, [.count 1], .completed, [(.sslWrite, lit "b")]⟩] _ :=
    .cons ⟨11, rfl⟩ (.cons ⟨0, rfl⟩ (.nil _))
  exact ⟨_, _, h, rfl, (sealed_iff rfl).mpr rfl _ _ h⟩

/-- A file of one byte is sent in the clear. -/
theorem file_unsealed : ¬ ∀ (conn : TcpConnection Unit) (file : Bytes), conn.sock.ssl = true →
    ∀ calls conn', Labelled.Run Called (conn.setFileStream file) calls conn' → Sealed calls := by
  intro h
  obtain ⟨c, conn', hcall, p, hp, hne, hraw⟩ := file_bypasses (show (answering true).fileSendable = true from rfl)
  have hs := h { new ⟨5, false, true⟩ with sender := (Buffer.new 2).append (lit "ab") } (lit "c") rfl [c] conn'
    (.cons hcall (.nil _)) c List.mem_cons_self p hp hne
  rw [hraw] at hs
  cases hs

end TcpConnection

end HahaWeb
