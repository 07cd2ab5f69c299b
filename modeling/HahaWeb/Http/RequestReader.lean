/-
  HahaWeb.Http.RequestReader — `parseRequest` is a resumable reader.

  The phases of `parseRequest` are the steps of `token` (`parseRequest_call`), and a
  connection that appends reads and calls `parseRequest` is its run (`receive_run`); each
  call of such a run starts where the run looks (`calls_mem`), and where the run looks a
  call goes on (`visits_call`).
-/

import HahaWeb.Http.RequestToken

namespace HahaWeb.HttpRequest

open Resumable (Act Steps Ends Call Run Visits)

variable {D : Type} (env : Env D)

/-! ## Calls -/

/-- A parse function ends as a call of a reader does; `mark` is what it records of its result. -/
def Ended (mark : RetState → HttpRequest D → HttpRequest D) (p : Except Fault (Parsed D)) (o : Option Verdict)
    (t : HttpRequest D) (y : Bytes) : Prop :=
  match o with
  | none => ∃ b, p = .ok (.againRequest, mark .againRequest t, b) ∧ b.readable = y
  | some .ok => ∃ b, p = .ok (.okRequest, mark .okRequest t, b) ∧ b.readable = y
  | some .bad => ∃ b, p = .ok (.badRequest, mark .badRequest t, b) ∧ b.readable = y
  | some (.fault f) => p = .error f

/-- A phase records nothing. -/
def Replies : Except Fault (Parsed D) → Option Verdict → HttpRequest D → Bytes → Prop := Ended fun _ t => t

/-- A call of `parseRequest` records its result in `retState`. -/
def Returns : Except Fault (Parsed D) → Option Verdict → HttpRequest D → Bytes → Prop :=
  Ended fun ret t => { t with retState := ret }

/-! ## The chunks -/

/-- The loop does with a buffer what the tokens do with its bytes. -/
def Follows (fuel : Nat) (rq : HttpRequest D) (b : Buffer) : Prop :=
  ∃ o t y, Call chunkToken rq b.readable o t y ∧ Replies (chunkedLoop fuel b.readable rq b) o t y

section

variable {fuel n : Nat} {rq rq' : HttpRequest D} {b b' : Buffer}

/-- A round that consumes goes on with what is left. -/
theorem Follows.take (h : Follows fuel rq' b') (ht : chunkToken rq b.readable = .take n rq')
    (hb : b'.readable = b.readable.drop n)
    (hloop : chunkedLoop (fuel + 1) b.readable rq b = chunkedLoop fuel (b.readable.drop n) rq' b') :
    Follows (fuel + 1) rq b := by
  obtain ⟨o, t, y, hc, hr⟩ := h
  rw [hb] at hc hr
  exact ⟨o, t, y, .of_take ht hc, hloop ▸ hr⟩

theorem Follows.wait (ht : chunkToken rq b.readable = .wait 0 rq)
    (hloop : chunkedLoop (fuel + 1) b.readable rq b = .ok (.againRequest, rq, b)) : Follows (fuel + 1) rq b :=
  ⟨_, _, _, .of_wait ht, b, hloop, rfl⟩

theorem Follows.bad {t : HttpRequest D} (ht : chunkToken rq b.readable = .halt 0 .bad t)
    (hloop : chunkedLoop (fuel + 1) b.readable rq b = .ok (.badRequest, t, b)) : Follows (fuel + 1) rq b :=
  ⟨_, _, _, .of_halt ht, b, hloop, rfl⟩

variable (ih : ∀ (rq' : HttpRequest D) (b' : Buffer), b'.readable.length < b.readable.length → Follows fuel rq' b')

include ih in
theorem Follows.noLen (hs : rq.curChunkedState = .noLen) : Follows (fuel + 1) rq b := by
  cases hf : find crlf (b.readable.take (chunkSizeStrLimit + 2)) with
  | none =>
    apply Follows.wait
    · simp [chunkToken, chunkTokenBy, hs, hf]
    · simp [chunkedLoop, hs, hf]
  | some pos =>
    have hle := find_le hf
    simp only [List.length_take, crlf, List.length_cons, List.length_nil] at hle
    have hlim : ¬ chunkSizeStrLimit < pos := by omega
    obtain ⟨b', hb', hr'⟩ := Buffer.retrieve_of_le (show pos + 2 ≤ b.readable.length by omega)
    have hrp : removePrefix b.readable (pos + 2) = .ok (b.readable.drop (pos + 2)) := removePrefix_of_le (by omega)
    have hless : b'.readable.length < b.readable.length := by
      rw [hr', List.length_drop]
      omega
    have hsize : hexString2Int (b.readable.take pos) = .ok (hexSize (b.readable.take pos)) :=
      hexString2Int_short (by simp only [List.length_take, chunkSizeStrLimit] at *; omega)
    by_cases h0 : hexSize (b.readable.take pos) = 0
    · refine (ih { rq with curChunkSize := 0, curChunkedState := .done } b' hless).take (n := pos + 2) ?_ hr' ?_
      · simp only [chunkToken, chunkTokenBy, hs, hf, h0, if_true]
      · simp only [chunkedLoop, hs, hf, hlim, hsize, h0, if_true, if_false, hb', hrp, bind, Except.bind]
    · by_cases h1 : hexSize (b.readable.take pos) = -1
      · apply Follows.bad (t := { rq with curChunkSize := hexSize (b.readable.take pos) })
        · simp only [chunkToken, chunkTokenBy, hs, hf, h1, if_true]
          simp
        · simp only [chunkedLoop, hs, hf, hlim, hsize, h0, if_false, bind, Except.bind]
          simp [h1]
      · refine (ih { rq with curChunkSize := hexSize (b.readable.take pos), curChunkedState := .noData } b'
          hless).take (n := pos + 2) ?_ hr' ?_
        · simp only [chunkToken, chunkTokenBy, hs, hf, h0, h1, if_false]
        · simp only [chunkedLoop, hs, hf, hlim, hsize, h0, h1, if_false, hb', hrp, bind, Except.bind]

include ih in
theorem Follows.noData (hs : rq.curChunkedState = .noData) : Follows (fuel + 1) rq b := by
  by_cases hw : toInt b.readable.length < rq.curChunkSize + 2
  · apply Follows.wait
    · simp [chunkToken, chunkTokenBy, hs, hw]
    · simp [chunkedLoop, hs, hw]
  · by_cases hn : rq.curChunkSize < 0
    · have ht : chunkToken rq b.readable = .halt 0 (.fault .outOfRange) rq := by
        simp [chunkToken, chunkTokenBy, hs, hw, hn]
      refine ⟨_, _, _, .of_halt ht, ?_⟩
      simp [Replies, Ended, chunkedLoop, hs, hw, charAtInt, not_le.mpr hn, bind, Except.bind]
    · have hle := toInt_le b.readable.length
      obtain ⟨size, hsize⟩ := Int.eq_ofNat_of_zero_le (not_lt.mp hn)
      have hlen : size + 1 < b.readable.length := by omega
      have h1 : charAtInt b.readable rq.curChunkSize = .ok b.readable[size] := by
        simp [charAtInt, hsize, charAt_of_lt (show size < b.readable.length by omega)]
      have h2 : charAtInt b.readable (rq.curChunkSize + 1) = .ok b.readable[size + 1] := by
        simp [charAtInt, hsize, show ((size : Int) + 1).toNat = size + 1 by omega, charAt_of_lt hlen]
        omega
      have hcr := crlf_prefix_drop hlen
      by_cases hp : crlf <+: b.readable.drop size
      · obtain ⟨b', hb', hr'⟩ := Buffer.retrieve_of_le (show size + 2 ≤ b.readable.length by omega)
        have hrp : removePrefix b.readable (size + 2) = .ok (b.readable.drop (size + 2)) :=
          removePrefix_of_le (by omega)
        have hless : b'.readable.length < b.readable.length := by
          rw [hr', List.length_drop]
          omega
        obtain ⟨hc, hd⟩ := hcr.mp hp
        refine (ih { rq with body := rq.body ++ b.readable.take size, curChunkedState := .noLen } b' hless).take
          (n := size + 2) ?_ hr' ?_
        · simp only [chunkToken, chunkTokenBy, hs, hw, hn, if_false]
          simp only [hsize, Int.toNat_natCast, hp, if_true]
        · simp only [chunkedLoop, hs, hw, if_false, h1, h2, hc, hd, and_self, if_true, bind, Except.bind]
          simp only [hsize, Int.toNat_natCast, hb', hrp,
            Buffer.peek_of_le (show size ≤ b.readable.length by omega)]
      · apply Follows.bad (t := rq)
        · simp only [chunkToken, chunkTokenBy, hs, hw, hn, if_false]
          simp only [hsize, Int.toNat_natCast, hp, if_false]
        · simp only [chunkedLoop, hs, hw, if_false, h1, h2, bind, Except.bind, if_neg (mt hcr.mpr hp)]

/-- The line behind the last chunk ends the loop. -/
theorem Follows.done (hs : rq.curChunkedState = .done) : Follows (fuel + 1) rq b := by
  by_cases hl : b.readable.length < 2
  · apply Follows.wait
    · simp [chunkToken, chunkTokenBy, hs, hl]
    · simp [chunkedLoop, hs, hl]
  · by_cases hp : crlf <+: b.readable
    · have ht : chunkToken rq b.readable = .halt 2 .ok rq := by simp [chunkToken, chunkTokenBy, hs, hl, hp]
      obtain ⟨b', hb', hr'⟩ := Buffer.retrieve_of_le (show 2 ≤ b.readable.length by omega)
      exact ⟨_, _, _, .of_halt ht, b', by simp [chunkedLoop, hs, hl, hp, hb', bind, Except.bind], hr'⟩
    · apply Follows.bad (t := rq)
      · simp [chunkToken, chunkTokenBy, hs, hl, hp]
      · simp [chunkedLoop, hs, hl, hp]

end

theorem chunkedLoop_call : ∀ (fuel : Nat) (rq : HttpRequest D) (b : Buffer), b.readable.length < fuel →
    ∃ o t y, Call chunkToken rq b.readable o t y ∧ Replies (chunkedLoop fuel b.readable rq b) o t y := by
  intro fuel
  induction fuel with
  | zero => intro rq b h; omega
  | succ fuel ih =>
    intro rq b h
    have hless : ∀ (rq' : HttpRequest D) (b' : Buffer), b'.readable.length < b.readable.length → Follows fuel rq' b' :=
      fun rq' b' hb => ih rq' b' (by omega)
    cases hs : rq.curChunkedState with
    | noLen => exact Follows.noLen hless hs
    | noData => exact Follows.noData hless hs
    | done => exact Follows.done hs

/-! ## The phases -/

/-- A phase ends the call, or it brings the reader to the next one. -/
def Goes (lineMax : Nat) (p : Except Fault (Parsed D)) (s : HttpRequest D) (x : Bytes) (next : CheckState) : Prop :=
  (∃ o t y, o ≠ some .ok ∧ Call (token env lineMax) s x o t y ∧ Replies p o t y) ∨
    ∃ t b, p = .ok (.okRequest, t, b) ∧ t.state = next ∧ Steps (token env lineMax) (s, x) (t, b.readable)

theorem parseRequestLine_goes {rq : HttpRequest D} (hs : rq.state = .checkRequestLine) (b : Buffer) :
    Goes env maxRequestLineLen (parseStep env rq b) rq b.readable .checkHeader := by
  have htok : token env maxRequestLineLen rq b.readable = lineToken maxRequestLineLen rq b.readable :=
    token_line env b.readable hs
  have hlen := b.readable_length
  simp only [parseStep, hs, parseRequestLine]
  unfold lineToken at htok
  by_cases hmax : maxRequestLineLen < b.readableBytes
  · rw [hlen, if_pos hmax] at htok
    exact .inl ⟨_, _, _, by simp, .of_halt htok, b, by simp [hmax, advance, Except.map], rfl⟩
  · rw [hlen, if_neg hmax] at htok
    simp only [hmax, if_false]
    cases hf : find crlf b.readable with
    | none =>
      simp only [hf] at htok ⊢
      cases hb : badStart b.readable with
      | true =>
        simp only [hb, if_true] at htok ⊢
        exact .inl ⟨_, _, _, by simp, .of_halt htok, b, by simp [advance, Except.map], rfl⟩
      | false =>
        simp only [hb, Bool.false_eq_true, if_false] at htok ⊢
        exact .inl ⟨_, _, _, by simp, .of_wait htok, b, by simp [advance, Except.map], rfl⟩
    | some pos =>
      simp only [hf] at htok ⊢
      have hle := find_le hf
      match hp : parseLine rq (b.readable.take pos) with
      | .error f =>
        simp only [hp] at htok
        exact .inl ⟨_, _, _, by simp, .of_halt htok, by simp [Replies, Ended, bind, Except.bind, Except.map]⟩
      | .ok (none, rq') =>
        simp only [hp] at htok
        exact .inl ⟨_, _, _, by simp, .of_halt htok, b, by simp [bind, Except.bind, advance, Except.map], rfl⟩
      | .ok (some i, rq') =>
        simp only [hp] at htok
        obtain ⟨hi, -⟩ := parseLine_ok hp
        simp only [crlf, List.length_take, List.length_cons, List.length_nil] at hi hle
        obtain ⟨b', hb', hr'⟩ := Buffer.retrieve_of_le (show i ≤ b.readable.length by omega)
        refine .inr ⟨_, b', ?_, rfl, .single ⟨i, htok, hr'⟩⟩
        simp [hb', bind, Except.bind, advance, Except.map]

theorem headerLoop_goes : ∀ (fuel : Nat) {rq : HttpRequest D} (b : Buffer), rq.state = .checkHeader →
    b.readable.length < fuel →
    Goes env maxRequestLineLen ((headerLoop env fuel b.readable rq b).map (advance .checkContent)) rq b.readable
      .checkContent := by
  intro fuel
  induction fuel with
  | zero => intro rq b hs h; omega
  | succ fuel ih =>
    intro rq b hs h
    have htok : token env maxRequestLineLen rq b.readable = headerToken env rq b.readable :=
      token_header env b.readable hs
    unfold headerToken at htok
    rw [headerLoop]
    cases he : b.readable.isEmpty with
    | true =>
      simp only [he, if_true] at htok ⊢
      exact .inl ⟨_, _, _, by simp, .of_wait htok, b, by simp [advance, Except.map], rfl⟩
    | false =>
    simp only [he, Bool.false_eq_true, if_false] at htok ⊢
    by_cases hb : crlf <+: b.readable
    · have hle := hb.length_le
      simp only [crlf, List.length_cons, List.length_nil] at hle
      obtain ⟨b', hb', hr'⟩ := Buffer.retrieve_of_le (b := b) (by omega)
      simp only [hb, if_true] at htok ⊢
      cases hp : parseHeaders env rq with
      | error f =>
        simp only [hp] at htok
        exact .inl ⟨_, _, _, by simp, .of_halt htok, by simp [Replies, Ended, hb', bind, Except.bind, Except.map]⟩
      | ok rq' =>
        simp only [hp] at htok
        refine .inr ⟨_, b', ?_, rfl, .single ⟨2, htok, hr'⟩⟩
        simp [hb', bind, Except.bind, advance, Except.map]
    · simp only [hb, if_false] at htok ⊢
      by_cases hm : maxRequestHeaderLen < rq.header.size
      · simp only [hm, if_true] at htok ⊢
        exact .inl ⟨_, _, _, by simp, .of_halt htok, b, by simp [advance, Except.map], rfl⟩
      · simp only [hm, if_false] at htok ⊢
        cases hf : find crlf b.readable with
        | none =>
          simp only [hf] at htok ⊢
          exact .inl ⟨_, _, _, by simp, .of_wait htok, b, by simp [advance, Except.map], rfl⟩
        | some pos =>
          have hle := find_le hf
          simp only [crlf, List.length_cons, List.length_nil] at hle
          cases hl : headerLine (b.readable.take pos) with
          | none =>
            simp only [hf, hl] at htok ⊢
            exact .inl ⟨_, _, _, by simp, .of_halt htok, b, by simp [advance, Except.map], rfl⟩
          | some kv =>
            obtain ⟨key, value⟩ := kv
            simp only [hf, hl] at htok ⊢
            obtain ⟨b', hb', hr'⟩ := Buffer.retrieve_of_le (b := b) (by omega)
            simp only [removePrefix_of_le (show pos + 2 ≤ b.readable.length by omega), hb', bind, Except.bind, ← hr']
            rcases @ih { rq with header := rq.header.add key value } b' hs
                (by rw [hr', List.length_drop]; omega) with ⟨o, t, y, ho, hc, hr⟩ | ⟨t, b2, hp, ht, hst⟩
            · exact .inl ⟨o, t, y, ho, .of_take htok (hr' ▸ hc), hr⟩
            · exact .inr ⟨t, b2, hp, ht, .head ⟨_, htok, hr'⟩ hst⟩

/-! ### The content -/

theorem bodyToken_call {lineMax n : Nat} {s rq : HttpRequest D} {x : Bytes} {b : Buffer}
    (ht : token env lineMax s x = bodyToken env n rq) (hb : b.readable = x.drop n) :
    ∃ o t y, Call (token env lineMax) s x o t y ∧ Replies ((finishContent env rq b).map (advance .checkDone)) o t
    y := by
  unfold bodyToken at ht
  cases hp : parseBody env rq with
  | error f =>
    simp only [hp] at ht
    exact ⟨_, _, _, .of_halt ht, by simp [Replies, Ended, finishContent, hp, bind, Except.bind, Except.map]⟩
  | ok r =>
    cases r with
    | none =>
      simp only [hp] at ht
      exact ⟨_, _, _, .of_wait ht, b, by simp [finishContent, hp, bind, Except.bind, Except.map, advance], hb⟩
    | some rq' =>
      simp only [hp] at ht
      exact ⟨_, _, _, .of_halt ht, b, by simp [finishContent, hp, bind, Except.bind, Except.map, advance], hb⟩

/-- In the content of a chunked request the chunks are tokens. -/
theorem chunk_steps {lineMax : Nat} {rq : HttpRequest D} (hs : rq.state = .checkContent)
    (h1 : rq.hasTransferEncoding = true) (h2 : rq.chunked = true) {x : Bytes} {q : HttpRequest D × Bytes}
    (h : Steps chunkToken (rq, x) q) :
    Steps (token env lineMax) (rq, x) q ∧
      q.1.state = .checkContent ∧ q.1.hasTransferEncoding = true ∧ q.1.chunked = true ∧
      q.1.contentType = rq.contentType := by
  induction h with
  | refl => exact ⟨.refl, hs, h1, h2, rfl⟩
  | tail _ hq ih =>
    obtain ⟨ih, i1, i2, i3, i4⟩ := ih
    obtain ⟨n, hn, hd⟩ := hq
    obtain ⟨body, st, size, ht⟩ := chunkToken_take hn
    refine ⟨ih.tail ⟨n, ?_, hd⟩, by rw [ht]; exact ⟨i1, i2, i3, i4⟩⟩
    simp only [token, i1, contentToken_chunked env i2 i3, hn]

theorem chunkedContent_call {lineMax : Nat} {rq : HttpRequest D} (hs : rq.state = .checkContent)
    (h1 : rq.hasTransferEncoding = true) (h2 : rq.chunked = true) (b : Buffer) :
    ∃ o t y, Call (token env lineMax) rq b.readable o t y ∧
      Replies ((parseRequestContent env rq b).map (advance .checkDone)) o t y := by
  have hlen := b.readable_length
  obtain ⟨o, t, y, ⟨s', x', hst, he⟩, hr⟩ := chunkedLoop_call (b.readableBytes + 1) rq b (by omega)
  obtain ⟨hst', i1, i2, i3, -⟩ := chunk_steps env hs h1 h2 hst
  simp only at i1 i2 i3
  have htok : token env lineMax s' x' = contentToken env s' x' := token_content env x' i1
  rw [contentToken_chunked env i2 i3] at htok
  unfold parseRequestContent
  rw [if_pos h1, if_pos h2, parseChunked]
  cases he with
  | wait he =>
    obtain ⟨b', hb', hy⟩ := hr
    rw [he] at htok
    exact ⟨_, _, _, ⟨s', x', hst', .wait htok⟩, b', by rw [hb']; rfl, hy⟩
  | @halt n v _ he =>
    rw [he] at htok
    cases v with
    | ok =>
      obtain ⟨b', hb', hy⟩ := hr
      obtain ⟨o, t', y', hc, hr'⟩ := bodyToken_call env htok hy
      refine ⟨o, t', y', hc.of_steps hst', ?_⟩
      rw [hb']
      exact hr'
    | bad =>
      obtain ⟨b', hb', hy⟩ := hr
      exact ⟨_, _, _, ⟨s', x', hst', .halt htok⟩, b', by rw [hb']; rfl, hy⟩
    | fault f =>
      refine ⟨_, _, _, ⟨s', x', hst', .halt htok⟩, ?_⟩
      simp only [Replies, Ended] at hr ⊢
      rw [hr]
      rfl

theorem lengthContent_call {lineMax : Nat} {rq : HttpRequest D} (hs : rq.state = .checkContent)
    (h1 : ¬ rq.hasTransferEncoding = true) (h2 : rq.hasContentLength = true) (b : Buffer) :
    ∃ o t y, Call (token env lineMax) rq b.readable o t y ∧
      Replies ((parseRequestContent env rq b).map (advance .checkDone)) o t y := by
  have htok : token env lineMax rq b.readable = contentToken env rq b.readable := token_content env b.readable hs
  have hlen := b.readable_length
  unfold contentToken at htok
  unfold parseRequestContent
  rw [if_neg h1, if_pos h2] at htok ⊢
  by_cases hw : rq.body.length + b.readableBytes < rq.contentLength
  · rw [hlen, if_pos hw] at htok
    rw [if_pos hw]
    exact ⟨_, _, _, .of_wait htok, b, rfl, rfl⟩
  · rw [hlen, if_neg hw] at htok
    rw [if_neg hw]
    simp only at htok ⊢
    generalize sizeSub rq.contentLength rq.body.length = k at htok ⊢
    by_cases hk : b.readableBytes < k
    · rw [if_pos hk] at htok
      rw [if_pos hk]
      exact ⟨_, _, _, .of_halt htok, rfl⟩
    · rw [if_neg hk] at htok
      obtain ⟨b', hb', hr'⟩ := Buffer.retrieve_of_le (show k ≤ b.readable.length by omega)
      obtain ⟨o, t, y, hc, hr⟩ := bodyToken_call env htok hr'
      refine ⟨o, t, y, hc, ?_⟩
      rw [if_neg hk, hb', Buffer.peek_of_le (show k ≤ b.readable.length by omega)]
      exact hr

theorem parseRequestContent_call {lineMax : Nat} {rq : HttpRequest D} (hs : rq.state = .checkContent) (b : Buffer) :
    ∃ o t y, Call (token env lineMax) rq b.readable o t y ∧ Replies (parseStep env rq b) o t y := by
  have htok : token env lineMax rq b.readable = contentToken env rq b.readable := token_content env b.readable hs
  simp only [parseStep, hs]
  by_cases h1 : rq.hasTransferEncoding = true
  · by_cases h2 : rq.chunked = true
    · exact chunkedContent_call env hs h1 h2 b
    · rw [contentToken, if_pos h1, if_neg h2] at htok
      rw [parseRequestContent, if_pos h1, if_neg h2]
      exact ⟨_, _, _, .of_halt htok, b, rfl, rfl⟩
  · by_cases h2 : rq.hasContentLength = true
    · exact lengthContent_call env hs h1 h2 b
    · by_cases hm : rq.method = some .get ∨ rq.method = some .head
      · rw [contentToken, if_neg h1, if_neg h2, if_pos hm] at htok
        rw [parseRequestContent, if_neg h1, if_neg h2, if_pos hm]
        exact ⟨_, _, _, .of_halt htok, b, rfl, rfl⟩
      · rw [contentToken, if_neg h1, if_neg h2, if_neg hm] at htok
        rw [parseRequestContent, if_neg h1, if_neg h2, if_neg hm]
        exact ⟨_, _, _, .of_halt htok, b, rfl, rfl⟩

/-! ### The whole call -/

/-- A call that asks for more leaves the reader's state as it is. -/
theorem Returns.again {p : Except Fault (Parsed D)} {t : HttpRequest D} {y : Bytes} (h : Returns p none t y)
    (ht : t.retState = .againRequest) : ∃ b, p = .ok (.againRequest, t, b) ∧ b.readable = y := by
  obtain ⟨b, rfl, hb⟩ := h
  exact ⟨b, by simp only [← ht], hb⟩

theorem advance_ok {p : Except Fault (Parsed D)} {next : CheckState} {t : HttpRequest D} {b : Buffer}
    (h : p.map (advance next) = .ok (.okRequest, t, b)) : t.state = next := by
  cases p with
  | error f => cases h
  | ok r =>
    obtain ⟨ret, rq, b'⟩ := r
    cases ret <;> simp only
      [Except.map, advance, Except.ok.injEq, Prod.mk.injEq, reduceCtorEq, false_and, true_and] at h
    rw [← h.1]

/-- The turn a call ends in. -/
theorem parseLoop_returns {rq t : HttpRequest D} {b : Buffer} {o : Option Verdict} {y : Bytes} (fuel : Nat)
    (h : Replies (parseStep env rq b) o t y) (ho : o = some .ok → t.state = .checkDone) :
    Returns (parseLoop env (fuel + 1) rq b) o t y := by
  match o with
  | none =>
    obtain ⟨b', hb', hy⟩ := h
    exact ⟨b', by simp [parseLoop, hb', bind, Except.bind], hy⟩
  | some .ok =>
    obtain ⟨b', hb', hy⟩ := h
    exact ⟨b', by simp [parseLoop, hb', bind, Except.bind, ho rfl], hy⟩
  | some .bad =>
    obtain ⟨b', hb', hy⟩ := h
    exact ⟨b', by simp [parseLoop, hb', bind, Except.bind], hy⟩
  | some (.fault f) =>
    simp only [Replies, Ended] at h
    simp [Returns, Ended, parseLoop, h, bind, Except.bind]

theorem parseLoop_content {lineMax : Nat} {rq : HttpRequest D} (hs : rq.state = .checkContent) (b : Buffer)
    (fuel : Nat) :
    ∃ o t y, Call (token env lineMax) rq b.readable o t y ∧ Returns (parseLoop env (fuel + 1) rq b) o t y := by
  obtain ⟨o, t, y, hc, hr⟩ := parseRequestContent_call env hs b
  refine ⟨o, t, y, hc, parseLoop_returns env fuel hr ?_⟩
  intro hx
  subst hx
  obtain ⟨b', hb', -⟩ := hr
  simp only [parseStep, hs] at hb'
  exact advance_ok hb'

/-- A turn that brings the reader to the next phase is followed by the next turn. -/
theorem parseLoop_goes {rq : HttpRequest D} {b : Buffer} {next : CheckState} (hn : next ≠ .checkDone) (fuel : Nat)
    (hg : Goes env maxRequestLineLen (parseStep env rq b) rq b.readable next)
    (ih : ∀ (t : HttpRequest D) (b' : Buffer), t.state = next → ∃ o u y,
      Call (token env maxRequestLineLen) t b'.readable o u y ∧ Returns (parseLoop env (fuel + 1) t b') o u y) :
    ∃ o t y, Call (token env maxRequestLineLen) rq b.readable o t y ∧ Returns
    (parseLoop env (fuel + 2) rq b) o t y := by
  rcases hg with ⟨o, t, y, ho, hc, hr⟩ | ⟨t, b', hp, ht, hst⟩
  · exact ⟨o, t, y, hc, parseLoop_returns env _ hr fun h => absurd h ho⟩
  · obtain ⟨o, u, y, hc, hr⟩ := ih t b' ht
    refine ⟨o, u, y, hc.of_steps hst, ?_⟩
    rw [parseLoop, hp]
    simpa [bind, Except.bind, ht, hn] using hr

theorem parseLoop_header {rq : HttpRequest D} (hs : rq.state = .checkHeader) (b : Buffer) (fuel : Nat) :
    ∃ o t y, Call (token env maxRequestLineLen) rq b.readable o t y ∧
      Returns (parseLoop env (fuel + 2) rq b) o t y := by
  refine parseLoop_goes env (by decide) fuel ?_ fun t b' ht => parseLoop_content env ht b' fuel
  simp only [parseStep, hs, parseRequestHeader]
  exact headerLoop_goes env _ b hs (by rw [b.readable_length]; omega)

/-- A call of `parseRequest` is a call of the reader on the readable bytes. -/
theorem parseRequest_call {rq : HttpRequest D} (hs : rq.state ≠ .checkDone) (b : Buffer) :
    ∃ o t y, Call (token env maxRequestLineLen) rq b.readable o t y ∧ Returns (rq.parseRequest env b) o t y := by
  unfold parseRequest
  cases hst : rq.state with
  | checkRequestLine =>
    exact parseLoop_goes env (by decide) 1 (parseRequestLine_goes env hst b)
      fun t b' ht => parseLoop_header env ht b' 0
  | checkHeader => exact parseLoop_header env hst b 1
  | checkContent => exact parseLoop_content env hst b 2
  | checkDone => exact absurd hst hs

/-- What the reader does, `parseRequest` does. -/
theorem parseRequest_of_call {rq t : HttpRequest D} (hs : rq.state ≠ .checkDone) {b : Buffer} {o : Option Verdict}
    {y : Bytes} (h : Call (token env maxRequestLineLen) rq b.readable o t y) : Returns
    (rq.parseRequest env b) o t y := by
  obtain ⟨o', t', y', hc, hr⟩ := parseRequest_call env hs b
  obtain ⟨rfl, rfl, rfl⟩ := hc.unique h
  exact hr

/-! ## Runs -/

/-- How a run over reads ends; the reads not delivered count as left over. -/
def Received (mark : RetState → HttpRequest D → HttpRequest D)
    (p : Except Fault (RetState × HttpRequest D × Buffer × List Bytes)) (o : Option Verdict) (t : HttpRequest D)
    (y : Bytes) : Prop :=
  match o with
  | none => ∃ b, p = .ok (.againRequest, mark .againRequest t, b, []) ∧ b.readable = y
  | some .ok => ∃ b rs, p = .ok (.okRequest, mark .okRequest t, b, rs) ∧ b.readable ++ rs.flatten = y
  | some .bad => ∃ b rs, p = .ok (.badRequest, mark .badRequest t, b, rs) ∧ b.readable ++ rs.flatten = y
  | some (.fault f) => p = .error f

/-- A connection that calls `parse` after each read is a run of the reader `parse` is a
    call of, as long as AGAIN_REQUEST keeps `P`. -/
theorem receiveBy_run {parse : HttpRequest D → Buffer → Except Fault (Parsed D)}
    {mark : RetState → HttpRequest D → HttpRequest D} {step : HttpRequest D → Bytes → Act (HttpRequest D) Verdict}
    {P : HttpRequest D → Prop}
    (call : ∀ {rq : HttpRequest D} (b : Buffer), P rq →
      ∃ o t y, Call step rq b.readable o t y ∧ Ended mark (parse rq b) o t y)
    (again : ∀ {rq t : HttpRequest D} {x y : Bytes}, P rq → Call step rq x none t y → P t)
    (marked : ∀ {rq : HttpRequest D}, P rq → mark .againRequest rq = rq) (reads : List Bytes) :
    ∀ {rq : HttpRequest D} (b : Buffer), P rq → ∃ o t y, Run step rq b.readable reads o t y ∧
      Received mark (receiveBy parse rq b reads) o t y := by
  induction reads with
  | nil =>
    intro rq b hp
    exact ⟨none, rq, _, .nil _ _, b, by simp [receiveBy, marked hp], rfl⟩
  | cons r rs ih =>
    intro rq b hp
    obtain ⟨o, t, y, hc, hr⟩ := call (b.append r) hp
    rw [Buffer.readable_append] at hc
    match o with
    | none =>
      obtain ⟨b', hb', rfl⟩ := hr
      have ht := again hp hc
      rw [marked ht] at hb'
      obtain ⟨o, u, z, hrun, hrec⟩ := ih b' ht
      refine ⟨o, u, z, .wait hc hrun, ?_⟩
      simpa [receiveBy, hb', bind, Except.bind] using hrec
    | some .ok =>
      obtain ⟨b', hb', rfl⟩ := hr
      exact ⟨_, _, _, .halt hc, b', rs, by simp [receiveBy, hb', bind, Except.bind], rfl⟩
    | some .bad =>
      obtain ⟨b', hb', rfl⟩ := hr
      exact ⟨_, _, _, .halt hc, b', rs, by simp [receiveBy, hb', bind, Except.bind], rfl⟩
    | some (.fault f) =>
      refine ⟨_, _, _, .halt hc, ?_⟩
      simp only [Ended] at hr
      simp [Received, receiveBy, hr, bind, Except.bind]

/-- The reads behind those that left the parser waiting. -/
theorem receiveBy_append {parse : HttpRequest D → Buffer → Except Fault (Parsed D)} {reads : List Bytes} :
    ∀ {rq rq' : HttpRequest D} {b b' : Buffer}, receiveBy parse rq b reads = .ok (.againRequest, rq', b', []) →
      ∀ reads', receiveBy parse rq b (reads ++ reads') = receiveBy parse rq' b' reads' := by
  induction reads with
  | nil => intro rq rq' b b' h reads'; cases h; rfl
  | cons read reads ih =>
    intro rq rq' b b' h reads'
    simp only [List.cons_append, receiveBy, bind] at h ⊢
    cases hp : parse rq (b.append read) with
    | error f => rw [hp] at h; cases h
    | ok p =>
      obtain ⟨ret, rq1, b1⟩ := p
      simp only [hp, Except.bind] at h ⊢
      by_cases hret : ret = .againRequest
      · rw [if_pos hret] at h ⊢
        exact ih h reads'
      · rw [if_neg hret] at h
        cases h
        exact absurd rfl hret

/-- A connection that calls `parseRequest` after each read is a run of `token`. -/
theorem receive_run (reads : List Bytes) {rq : HttpRequest D} (b : Buffer) (hs : rq.state ≠ .checkDone)
    (hr : rq.retState = .againRequest) : ∃ o t y, Run (token env maxRequestLineLen) rq b.readable reads o t y ∧
      Received (fun ret t => { t with retState := ret }) (receive env rq b reads) o t y :=
  receiveBy_run (P := fun rq => rq.state ≠ .checkDone ∧ rq.retState = .againRequest)
    (fun b h => parseRequest_call env h.1 b)
    (fun h hc => have hk := call_kept env hc h.1; ⟨hk.undone, hk.retState.trans h.2⟩)
    (fun h => by rw [← h.2]) reads b ⟨hs, hr⟩

/-- Each call of a run is a call of the reader from a state the run visits. -/
theorem calls_mem (reads : List Bytes) : ∀ {rq : HttpRequest D} (b : Buffer), rq.state ≠ .checkDone →
    rq.retState = .againRequest → ∀ r ∈ calls env rq b reads, ∃ s x o t y,
      (∀ u w, Steps (token env maxRequestLineLen) (s, x) (u, w) →
        Visits (token env maxRequestLineLen) rq b.readable reads u w) ∧
      Call (token env maxRequestLineLen) s x o t y ∧ Returns r o t y := by
  induction reads with
  | nil => intro rq b _ _ r h; cases h
  | cons read reads ih =>
    intro rq b hs hret r h
    obtain ⟨o, t, y, hc, hr⟩ := parseRequest_call env hs (b.append read)
    rw [Buffer.readable_append] at hc
    simp only [calls, List.mem_cons] at h
    rcases h with rfl | h
    · exact ⟨rq, b.readable ++ read, o, t, y, fun u w h => .here h, hc, hr⟩
    · match o with
      | none =>
        have hk := call_kept env hc hs
        obtain ⟨b', hb', rfl⟩ := Returns.again hr (hk.retState.trans hret)
        simp only [hb'] at h
        obtain ⟨s, x, o, u, z, hv, hcall, hret'⟩ := ih b' hk.undone (hk.retState.trans hret) r h
        exact ⟨s, x, o, u, z, fun u w h => .later hc (hv u w h), hcall, hret'⟩
      | some .ok =>
        obtain ⟨b', hb', rfl⟩ := hr
        simp [hb'] at h
      | some .bad =>
        obtain ⟨b', hb', rfl⟩ := hr
        simp [hb'] at h
      | some (.fault f) =>
        simp only [Returns, Ended, Ended] at hr
        simp [hr] at h

/-- Where a run looks, one of its calls goes on as the reader does. -/
theorem visits_call {reads : List Bytes} {rq u : HttpRequest D} {x w : Bytes}
    (h : Visits (token env maxRequestLineLen) rq x reads u w) : ∀ (b : Buffer), b.readable = x → rq.state ≠ .checkDone →
    rq.retState = .againRequest → ∀ o t y, Call (token env maxRequestLineLen) u w o t y →
      ∃ r ∈ calls env rq b reads, Returns r o t y := by
  induction h with
  | @here rq x r rs t y h =>
    intro b hb hs _ o v z hc
    have hr : (b.append r).readable = x ++ r := by simp [hb]
    rw [← hr] at h
    exact ⟨_, by simp [calls], parseRequest_of_call env hs (hc.of_steps h)⟩
  | @later rq x r rs s' x' t y hc _ ih =>
    intro b hb hs hret o v z hcall
    have hr : (b.append r).readable = x ++ r := by simp [hb]
    have hc' := hc
    rw [← hr] at hc'
    have hk := call_kept env hc hs
    obtain ⟨b', hb', hx'⟩ := (parseRequest_of_call env hs hc').again (hk.retState.trans hret)
    obtain ⟨r', hmem, hret'⟩ := ih b' hx' hk.undone (hk.retState.trans hret) o v z hcall
    exact ⟨r', by simp only [calls, hb', List.mem_cons]; exact .inr hmem, hret'⟩

end HahaWeb.HttpRequest
