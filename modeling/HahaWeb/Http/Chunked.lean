/-
  HahaWeb.Http.Chunked — the chunks of a body, however they are cut into reads.

  The parser compares the size of the view with that of the chunk after a cast to `int`.
  `exactToken` compares the sizes themselves; it is a stable reader for any input, and
  where `Counted` holds, the parser does what it does. Proved: when the run never stands
  at a chunk whose bytes are all there but no longer counted, the calls ask for more until the
  last CRLF has come, and then the data of all chunks is behind the body and what
  follows them in the buffer (`chunks_read`).
-/

import HahaWeb.Http.RequestReader

namespace HahaWeb.HttpRequest

open Resumable (Act Steps Ends Call Run Visits Stable)

variable {D : Type}

/-! ## Sizes without the cast -/

def exactToken : HttpRequest D → Bytes → Act (HttpRequest D) Verdict := chunkTokenBy fun n => n

/-- A chunk that is there is seen to be there. -/
def Counted (s : HttpRequest D) (x : Bytes) : Prop :=
  s.curChunkedState = .noData → s.curChunkSize + 2 ≤ x.length → s.curChunkSize + 2 ≤ toInt x.length

theorem counted_of_lt {s : HttpRequest D} {x : Bytes} (h : x.length < 2 ^ 31) : Counted s x := by
  intro _ hx
  rwa [toInt_of_lt h]

theorem exactToken_eq {s : HttpRequest D} {x : Bytes} (h : Counted s x) : exactToken s x = chunkToken s x := by
  unfold exactToken chunkToken chunkTokenBy
  cases hs : s.curChunkedState with
  | noLen => rfl
  | done => rfl
  | noData =>
    have hle := toInt_le x.length
    have hiff : (x.length : Int) < s.curChunkSize + 2 ↔ toInt x.length < s.curChunkSize + 2 :=
      ⟨fun hx => by omega, fun hx => not_le.mp fun hle => absurd (h hs hle) (not_le.mpr hx)⟩
    simp only [hiff]

theorem exactToken_more (rq : HttpRequest D) (x z : Bytes) :
    exactToken rq x = .wait 0 rq ∨
      exactToken rq (x ++ z) = exactToken rq x ∧ (exactToken rq x).used ≤ x.length := by
  unfold exactToken chunkTokenBy
  cases rq.curChunkedState with
  | noLen =>
    dsimp only
    cases hf : find crlf (x.take (chunkSizeStrLimit + 2)) with
    | none => exact .inl rfl
    | some pos =>
      right
      have hle := find_le hf
      simp only [crlf, List.length_cons, List.length_nil, List.length_take] at hle
      rw [List.take_append, find_append hf]
      dsimp only
      rw [List.take_append_of_le_length (by omega)]
      refine ⟨rfl, ?_⟩
      repeat' split
      all_goals simp only [Act.used]; omega
  | noData =>
    dsimp only
    by_cases hw : (x.length : Int) < rq.curChunkSize + 2
    · exact .inl (if_pos hw)
    · right
      rw [if_neg hw, if_neg (show ¬ ((x ++ z).length : Int) < rq.curChunkSize + 2 by rw [List.length_append]; omega)]
      by_cases hn : rq.curChunkSize < 0
      · rw [if_pos hn, if_pos hn]
        exact ⟨rfl, Nat.zero_le _⟩
      · rw [if_neg hn, if_neg hn, List.drop_append_of_le_length (by omega), List.take_append_of_le_length (by omega)]
        have hp := prefix_append_iff (show crlf.length ≤ (x.drop rq.curChunkSize.toNat).length by simp [crlf]; omega) z
        refine ⟨by simp only [hp], ?_⟩
        split <;> simp only [Act.used] <;> omega
  | done =>
    dsimp only
    by_cases hl : x.length < 2
    · exact .inl (if_pos hl)
    · right
      rw [if_neg hl, if_neg (show ¬ (x ++ z).length < 2 by simp; omega)]
      have hp := prefix_append_iff (show crlf.length ≤ x.length by simp [crlf]; omega) z
      refine ⟨by simp only [hp], ?_⟩
      split <;> simp only [Act.used] <;> omega

theorem exactToken_stable : Stable (exactToken (D := D)) fun _ _ => True :=
  ⟨⟨fun _ => exactToken_more _ _ _, fun _ _ => trivial⟩, fun _ h => .inl (chunkTokenBy_wait h)⟩

/-- So the parser's tokens change no more with more input, while it is short. -/
theorem chunkToken_more (rq : HttpRequest D) {x z : Bytes} (hz : (x ++ z).length < 2 ^ 31) :
    chunkToken rq x = .wait 0 rq ∨
      chunkToken rq (x ++ z) = chunkToken rq x ∧ (chunkToken rq x).used ≤ x.length := by
  have hx : x.length < 2 ^ 31 := by rw [List.length_append] at hz; omega
  rw [← exactToken_eq (counted_of_lt hx), ← exactToken_eq (counted_of_lt hz)]
  exact exactToken_more rq x z

/-! ## Chunks as a client writes them -/

/-- A size line and the data it counts. -/
structure Chunk (c : Bytes × Bytes) : Prop where
  digits : ∀ d ∈ c.1, isxdigit d = true
  short : c.1.length ≤ chunkSizeStrLimit
  size : hexString2Int c.1 = .ok (c.2.length : Int)
  nonempty : c.2 ≠ []

def chunkText (c : Bytes × Bytes) : Bytes := c.1 ++ crlf ++ (c.2 ++ crlf)

/-- The last size line, of zeros, and the blank line. -/
def lastChunk (zeros : Nat) : Bytes := List.replicate zeros 48 ++ crlf ++ crlf

def chunkedText (chunks : List (Bytes × Bytes)) (zeros : Nat) : Bytes := chunks.flatMap chunkText ++ lastChunk zeros

/-- The sizes that `int2HexString` writes. -/
theorem chunk_int2HexString {c : Bytes} (hne : c ≠ []) (hlt : c.length < 10 ^ 5) : Chunk
    (int2HexString c.length, c) := by
  refine ⟨fun d hd => ?_, ?_, hexString2Int_int2HexString (by omega), hne⟩
  · obtain ⟨e, he, rfl⟩ := List.mem_map.mp (List.mem_reverse.mp hd)
    exact (dec2hex_digit (Nat.digits_lt_base (by omega) he)).1
  · simp only [int2HexString, List.length_reverse, List.length_map, chunkSizeStrLimit]
    exact (Nat.digits_length_le_iff (by omega) _).mpr hlt

theorem xdigits_noCR {s : Bytes} (h : ∀ d ∈ s, isxdigit d = true) : CR ∉ s := by
  intro hm
  have hcr : isxdigit CR = false := by decide
  rw [h CR hm] at hcr
  cases hcr

/-- The parser finds the size line in the bytes it looks at. -/
theorem find_sizeLine {s : Bytes} (h : ∀ d ∈ s, isxdigit d = true) (hs : s.length ≤ chunkSizeStrLimit) (rest : Bytes) :
    find crlf ((s ++ crlf ++ rest).take (chunkSizeStrLimit + 2)) = some s.length := by
  rw [List.take_append, List.take_of_length_le (by simp [crlf]; omega)]
  exact find_crlf_of_not_mem (xdigits_noCR h) _

theorem hexString2Int_zeros (n : Nat) : hexString2Int (List.replicate n 48) = .ok 0 := by
  unfold hexString2Int
  induction n with
  | zero => rfl
  | succ n ih =>
    have hx : isxdigit 48 = true := by decide
    have hd : (0 : Int) * 10 + ((hex2dec 48).toNat : Nat) = 0 := by decide
    have hfit : ¬(2 ^ 31 : Int) ≤ 0 := by decide
    simpa only [List.replicate_succ, hexLoop, hx, hd, hfit, Bool.not_true, Bool.false_eq_true, if_false,
      Int.lt_irrefl] using ih

theorem token_sizeLine (len : Nat → Int) {rq : HttpRequest D} (hs : rq.curChunkedState = .noLen) {c : Bytes × Bytes}
    (hc : Chunk c) (rest : Bytes) : chunkTokenBy len rq (chunkText c ++ rest) =
      .take (c.1.length + 2) { rq with curChunkSize := c.2.length, curChunkedState := .noData } := by
  have hpos : 0 < c.2.length := List.length_pos_iff.mpr hc.nonempty
  rw [chunkText, List.append_assoc]
  simp only [chunkTokenBy, hs, find_sizeLine hc.digits hc.short]
  rw [List.append_assoc c.1, List.take_left, hexSize_eq hc.size, if_neg (by omega), if_neg (by omega)]

theorem drop_sizeLine (c : Bytes × Bytes) (rest : Bytes) :
    (chunkText c ++ rest).drop (c.1.length + 2) = c.2 ++ crlf ++ rest := by
  rw [chunkText, List.append_assoc, drop_line]

/-- A chunk is two tokens, its size line and its data. -/
theorem steps_chunk {rq : HttpRequest D} (hs : rq.curChunkedState = .noLen) {c : Bytes × Bytes} (hc : Chunk c)
    (rest : Bytes) :
    Steps exactToken (rq, chunkText c ++ rest)
    ({ rq with body := rq.body ++ c.2, curChunkSize := c.2.length }, rest) := by
  have hdata : exactToken { rq with curChunkSize := c.2.length, curChunkedState := .noData } (c.2 ++ crlf ++ rest) =
      .take (c.2.length + 2) { rq with body := rq.body ++ c.2, curChunkSize := c.2.length } := by
    simp only [exactToken, chunkTokenBy, Int.toNat_natCast]
    have hlen : ¬ ((c.2 ++ crlf ++ rest).length : Int) < c.2.length + 2 := by
      simp only [List.length_append, crlf, List.length_cons, List.length_nil]
      omega
    rw [if_neg hlen, if_neg (by omega), List.append_assoc, List.drop_left,
      if_pos (List.prefix_append _ _), List.take_left, ← hs]
  have h1 := Steps.of_take (token_sizeLine (fun n => n) hs hc rest)
  have h2 := Steps.of_take hdata
  rw [drop_sizeLine] at h1
  rw [drop_line] at h2
  exact h1.trans h2

theorem steps_chunks {chunks : List (Bytes × Bytes)} (hc : ∀ c ∈ chunks, Chunk c) (rest : Bytes) :
    ∀ {rq : HttpRequest D}, rq.curChunkedState = .noLen → ∃ size,
      Steps exactToken (rq, chunks.flatMap chunkText ++ rest)
        ({ rq with body := rq.body ++ chunks.flatMap (·.2), curChunkSize := size }, rest) := by
  induction chunks with
  | nil => exact fun {rq} _ => ⟨rq.curChunkSize, by simpa using .refl⟩
  | cons c chunks ih =>
    intro rq hs
    have hstep := steps_chunk hs (hc c List.mem_cons_self) (chunks.flatMap chunkText ++ rest)
    obtain ⟨size, hst⟩ := @ih (fun c h => hc c (List.mem_cons_of_mem _ h))
      { rq with body := rq.body ++ c.2, curChunkSize := c.2.length } hs
    refine ⟨size, ?_⟩
    simp only [List.flatMap_cons, List.append_assoc] at hstep hst ⊢
    exact hstep.trans hst

/-- Received in one read, the chunks are read to their end. -/
theorem call_chunkedText {chunks : List (Bytes × Bytes)} (hc : ∀ c ∈ chunks, Chunk c) {zeros : Nat}
    (hz : zeros ≤ chunkSizeStrLimit) {rq : HttpRequest D} (hs : rq.curChunkedState = .noLen) :
    ∃ t, Call exactToken rq (chunkedText chunks zeros) (some .ok) t [] ∧ t.body = rq.body ++ chunks.flatMap (·.2) := by
  obtain ⟨size, hst⟩ := steps_chunks hc (lastChunk zeros) hs
  have hzero : ∀ d ∈ List.replicate zeros (48 : UInt8), isxdigit d = true := by
    intro d hd
    rw [List.eq_of_mem_replicate hd]
    decide
  have hfind := find_sizeLine hzero (by simpa using hz) crlf
  have hsize : exactToken { rq with body := rq.body ++ chunks.flatMap (·.2), curChunkSize := size } (lastChunk zeros) =
      .take (zeros + 2) { rq with body := rq.body ++ chunks.flatMap (·.2), curChunkSize := 0, curChunkedState :=
        .done } := by
    simp only [exactToken, chunkTokenBy, hs, lastChunk, hfind]
    rw [List.append_assoc, List.take_left, hexSize_eq (hexString2Int_zeros zeros), if_pos rfl, List.length_replicate]
  have hdrop : (lastChunk zeros).drop (zeros + 2) = crlf := by
    have hline := drop_line (List.replicate zeros 48) crlf
    rwa [List.length_replicate] at hline
  have hend : exactToken
    { rq with body := rq.body ++ chunks.flatMap (·.2), curChunkSize := 0, curChunkedState := .done }
      ((lastChunk zeros).drop (zeros + 2)) = .halt 2 .ok
        { rq with body := rq.body ++ chunks.flatMap (·.2), curChunkSize := 0, curChunkedState := .done } := by
    rw [hdrop]
    rfl
  have hcall := ((Call.of_halt hend).of_take hsize).of_steps hst
  rw [hdrop] at hcall
  exact ⟨_, hcall, rfl⟩

/-! ## Runs -/

/-- What a connection reads from `text`, which frames `data`: the calls ask for more until
    all of it is there, and then leave what was received behind it. -/
structure Unframed (text data : Bytes) (rq : HttpRequest D) (b : Buffer) (reads : List Bytes) : Prop where
  again : reads.flatten.length < text.length → ∃ rq' b', receiveChunked rq b reads = .ok (.againRequest, rq', b', [])
  done : ∀ rs r rs', reads = rs ++ r :: rs' → rs.flatten.length < text.length →
    text.length ≤ (rs ++ [r]).flatten.length → ∃ rq' b', receiveChunked rq b reads = .ok (.okRequest, rq', b', rs') ∧
      rq'.body = rq.body ++ data ∧ b'.readable = (rs ++ [r]).flatten.drop text.length

/-- Where every chunk is counted, `parseChunked` after each read is a run of the exact reader. -/
theorem receiveChunked_run {rq : HttpRequest D} {b : Buffer} {reads : List Bytes}
    (h : ∀ u w, Visits chunkToken rq b.readable reads u w → Counted u w) :
    ∃ o t y, Run exactToken rq b.readable reads o t y ∧ Received (fun _ t => t) (receiveChunked rq b reads) o t y := by
  obtain ⟨o, t, y, hr, hp⟩ := receiveBy_run
    (P := fun _ => True) (fun b _ => chunkedLoop_call _ _ b (by rw [b.readable_length]; exact Nat.lt_succ_self _))
    (fun _ _ => trivial) (fun _ => rfl) reads b trivial
  exact ⟨o, t, y, hr.congr fun u w hv => exactToken_eq (h u w hv), hp⟩

section

variable {rq t : HttpRequest D} {b : Buffer} {text : Bytes} (hc : Call exactToken rq text (some .ok) t [])
  (hw : exactToken rq [] = .wait 0 rq) (hb : b.readable = [])
include hc hw hb

theorem receiveChunked_again {reads : List Bytes} (h : ∀ u w, Visits chunkToken rq b.readable reads u w → Counted u w)
    {z : Bytes} (hz : reads.flatten ++ z = text) (hne : 0 < z.length) :
    ∃ rq' b', receiveChunked rq b reads = .ok (.againRequest, rq', b', []) := by
  obtain ⟨o, u, y, hr, hp⟩ := receiveChunked_run h
  rw [hb] at hr
  rw [← hz, ← List.nil_append reads.flatten] at hc
  obtain rfl := hr.none_of_halts exactToken_stable hw trivial trivial hc hne
  obtain ⟨b', hb', -⟩ := hp
  exact ⟨u, b', hb'⟩

theorem receiveChunked_done {reads : List Bytes} (h : ∀ u w, Visits chunkToken rq b.readable reads u w → Counted u w)
    {z : Bytes} (hz : reads.flatten = text ++ z) :
    ∃ b' rs, receiveChunked rq b reads = .ok (.okRequest, t, b', rs) ∧ b'.readable ++ rs.flatten = z := by
  obtain ⟨o, u, y, hr, hp⟩ := receiveChunked_run h
  rw [hb] at hr
  have hcall := hr.call exactToken_stable hw trivial
  rw [List.nil_append, hz] at hcall
  obtain ⟨rfl, rfl, rfl⟩ := hcall.unique (exactToken_stable.call_halt hc z trivial)
  exact hp

theorem unframed {data : Bytes} (hdata : t.body = rq.body ++ data) {reads : List Bytes} {tail : Bytes}
    (hpre : reads.flatten <+: text ++ tail) (h : ∀ u w, Visits chunkToken rq [] reads u w → Counted u w) :
    Unframed text data rq b reads := by
  rw [← hb] at h
  constructor
  · intro hlt
    obtain ⟨z, hz⟩ := List.prefix_of_prefix_length_le hpre (List.prefix_append text tail) hlt.le
    have hlen := congrArg List.length hz
    rw [List.length_append] at hlen
    exact receiveChunked_again hc hw hb h hz (by omega)
  · intro rs r rs' hx hlt hle
    subst hx
    have hall : rs ++ r :: rs' = (rs ++ [r]) ++ rs' := by simp
    have hpre' : (rs ++ [r]).flatten <+: text ++ tail := by
      rw [hall, List.flatten_append] at hpre
      exact (List.prefix_append _ _).trans hpre
    have hrs : rs.flatten <+: text := by
      rw [List.flatten_append] at hpre'
      exact List.prefix_of_prefix_length_le ((List.prefix_append _ _).trans hpre') (List.prefix_append text tail) hlt.le
    obtain ⟨z, hz⟩ := hrs
    obtain ⟨w, hw'⟩ := List.prefix_of_prefix_length_le (List.prefix_append text tail) hpre' hle
    have hlen := congrArg List.length hz
    rw [List.length_append] at hlen
    obtain ⟨rq1, b1, hagain⟩ := receiveChunked_again hc hw hb (fun u v hv => h u v (hv.append _)) hz (by omega)
    obtain ⟨b', rs1, hdone, hleft⟩ := receiveChunked_done hc hw hb
      (fun u v hv => h u v (hall ▸ hv.append rs')) hw'.symm
    -- the last of these reads is the call that ends the run
    rw [receiveChunked, receiveBy_append hagain] at hdone ⊢
    simp only [receiveBy, bind] at hdone ⊢
    cases hp : rq1.parseChunked (b1.append r) with
    | error f => rw [hp] at hdone; cases hdone
    | ok p =>
      obtain ⟨ret, rq2, b2⟩ := p
      simp only [hp, Except.bind] at hdone ⊢
      by_cases hret : ret = .againRequest
      · rw [if_pos hret] at hdone
        cases hdone
      · rw [if_neg hret] at hdone ⊢
        cases hdone
        rw [List.flatten_nil, List.append_nil] at hleft
        exact ⟨t, b', rfl, hdata, by rw [hleft, ← hw', List.drop_left]⟩

end

/-- However the chunks are cut into reads, the calls ask for more until the last CRLF, and
    then the body has grown by their data and what follows is in the buffer. -/
theorem chunks_read {chunks : List (Bytes × Bytes)} (hc : ∀ c ∈ chunks, Chunk c) {zeros : Nat}
    (hz : zeros ≤ chunkSizeStrLimit) {rq : HttpRequest D} (hs : rq.curChunkedState = .noLen) {b : Buffer}
    (hb : b.readable = []) {reads : List Bytes} {tail : Bytes}
    (hpre : reads.flatten <+: chunkedText chunks zeros ++ tail)
    (h : ∀ u w, Visits chunkToken rq [] reads u w → Counted u w) :
    Unframed (chunkedText chunks zeros) (chunks.flatMap (·.2)) rq b reads := by
  obtain ⟨t, hcall, hbody⟩ := call_chunkedText hc hz hs
  have hw : exactToken rq [] = .wait 0 rq := by
    simp only [exactToken, chunkTokenBy, hs]
    rfl
  exact unframed hcall hw hb hbody hpre h

theorem chunks_read_two : Unframed (chunkedText [(lit "1", lit "a"), (lit "2", lit "\r\n")] 1)
    (lit "a\r\n") (new : HttpRequest Unit) .empty [lit "1\r", lit "\na\r\n2\r\n\r\n\r\n0\r\n\r", lit "\nGET"] :=
  chunks_read
    (by
      simp only [List.mem_cons, List.not_mem_nil, or_false, forall_eq_or_imp, forall_eq]
      exact ⟨⟨List.all_eq_true.mp (by decide), by decide, by decide, by decide⟩,
        ⟨List.all_eq_true.mp (by decide), by decide, by decide, by decide⟩⟩)
    (by decide) rfl rfl
    (show _ <+: chunkedText [(lit "1", lit "a"), (lit "2", lit "\r\n")] 1 ++ lit "GET" by decide)
    fun u w hv => counted_of_lt (hv.length_le.trans_lt (by decide))

/-! ### Where a chunk is not counted -/

theorem parseChunked_of_call {rq t : HttpRequest D} {b : Buffer} {o : Option Verdict} {y : Bytes}
    (h : Call chunkToken rq b.readable o t y) : Replies (parseChunked rq b) o t y := by
  obtain ⟨o', t', y', hc, hr⟩ := chunkedLoop_call (b.readableBytes + 1) rq b
    (by rw [b.readable_length]; exact Nat.lt_succ_self _)
  obtain ⟨rfl, rfl, rfl⟩ := hc.unique h
  exact hr

/-- A chunk that is there is waited for when the cast makes the size of the view too small. -/
theorem chunk_awaited {rq : HttpRequest D} (hs : rq.curChunkedState = .noLen) {c : Bytes × Bytes} (hc : Chunk c)
    {rest : Bytes} (hlen : toInt (c.2 ++ crlf ++ rest).length < c.2.length + 2) {b : Buffer}
    (hb : b.readable = chunkText c ++ rest) : ∃ rq' b', parseChunked rq b = .ok (.againRequest, rq', b') := by
  have hwait : chunkToken { rq with curChunkSize := c.2.length, curChunkedState := .noData }
      ((chunkText c ++ rest).drop (c.1.length + 2)) =
      .wait 0 { rq with curChunkSize := c.2.length, curChunkedState := .noData } := by
    rw [drop_sizeLine]
    simp only [chunkToken, chunkTokenBy]
    exact if_pos hlen
  obtain ⟨b', hb', -⟩ :=
    parseChunked_of_call (b := b) (by rw [hb]; exact (Call.of_wait hwait).of_take (token_sizeLine _ hs hc rest))
  exact ⟨_, b', hb'⟩

/-- With 2^31 bytes behind it a chunk is not counted. -/
theorem chunks_missed : ¬ ∀ (chunks : List (Bytes × Bytes)) (zeros : Nat) (tail : Bytes) (b : Buffer)
    (reads : List Bytes),
    (∀ c ∈ chunks, Chunk c) → 0 < zeros → zeros ≤ chunkSizeStrLimit → b.readable = [] →
    reads.flatten <+: chunkedText chunks zeros ++ tail →
    Unframed (chunkedText chunks zeros) (chunks.flatMap (·.2)) (new : HttpRequest Unit) b reads := by
  intro h
  obtain ⟨tail, htail⟩ : ∃ tail : Bytes, tail.length = 2 ^ 31 := ⟨List.replicate _ 0, List.length_replicate⟩
  have hc : Chunk (lit "1", lit "a") := ⟨List.all_eq_true.mp (by decide), by decide, by decide, by decide⟩
  have hu := h [(lit "1", lit "a")] 1 tail .empty [chunkedText [(lit "1", lit "a")] 1 ++ tail] (by simpa using hc)
    (by decide) (by decide) rfl (by simp)
  obtain ⟨rq, b, hdone, -, -⟩ := hu.done [] _ [] rfl (by simp [chunkedText, lastChunk, crlf]) (by simp)
  obtain ⟨rq', b', hagain⟩ := chunk_awaited (show (new : HttpRequest Unit).curChunkedState = .noLen from rfl) hc
    (b := Buffer.empty.append (chunkedText [(lit "1", lit "a")] 1 ++ tail))
    (by
      have h1 : (lit "a" ++ crlf ++ (lastChunk 1 ++ tail)).length = 8 + 2 ^ 31 := by
        simp [lastChunk, crlf, htail, lit]
      rw [h1]
      decide)
    (by simp [chunkedText])
  simp [receiveChunked, receiveBy, hagain, bind, Except.bind] at hdone

end HahaWeb.HttpRequest
