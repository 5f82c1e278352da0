import WorkflowModel.Proof.HttpAccess
import WorkflowModel.Proof.HttpFragments

/-!
# The bounds of the two loops of the parser

A loop that is entered inside the message makes every round inside of it. So the accesses of a round are in
bounds, the loop has the result that it has on lists, and every round that returns 1 moves the offset on.
-/

namespace WorkflowModel.Http

open WorkflowModel Resume

section Loop

variable {M : Machine UInt8 HttpParser Int} {live Kept : HttpParser → Prop} {R : HttpParser → HttpParser → Prop}
  {round : HttpParser → Option (Int × HttpParser)} {ends : HttpParser → HttpParser → Bool} {message : Bytes}
  {part : HttpParser → Int × HttpParser} {p q next entry : HttpParser} {ret : Int} {rounds : Nat}

inductive Iteration (round : HttpParser → Option (Int × HttpParser)) (ends : HttpParser → HttpParser → Bool)
    (entry : HttpParser) : HttpParser → Prop
  | enter : Iteration round ends entry entry
  | again {q next : HttpParser} {ret : Int} (h : Iteration round ends entry q) (hround : round q = some (ret, next))
      (hends : ends q next = false) (hret : 0 < ret) : Iteration round ends entry next

/-- The rounds of a loop make their accesses in bounds and are the steps of a machine, as long as something is
kept. -/
structure Rounds (M : Machine UInt8 HttpParser Int) (live Kept : HttpParser → Prop) (message : Bytes)
    (round : HttpParser → Option (Int × HttpParser)) (ends : HttpParser → HttpParser → Bool)
    (part : HttpParser → Int × HttpParser) : Prop where
  round_eq : ∀ {p}, M.Ready live message p → Kept p → round p = some (part p)
  step_eq : ∀ p, M.step p (message.drop (M.offset p)) =
    if ends p (part p).2 then (.stop 1, (part p).2) else (verdictOf (part p).1, (part p).2)
  keeps : ∀ {p}, M.Ready live message p → Kept p → Kept (M.step p (message.drop (M.offset p))).2

theorem Rounds.again (h : Rounds M live Kept message round ends part) (hM : M.Resumable live R)
    (hp : M.Ready live message p) (hkept : Kept p) (hround : round p = some (ret, next)) (hends : ends p next = false)
    (hret : 0 < ret) : M.step p (message.drop (M.offset p)) = (.again, next) ∧ M.Ready live message next ∧ Kept next := by
  have hpart : part p = (ret, next) := Option.some.inj ((h.round_eq hp hkept).symm.trans hround)
  have hstep : M.step p (message.drop (M.offset p)) = (.again, next) := by
    rw [h.step_eq, hpart]
    simp [hends, verdictOf, hret]
  have hnext := h.keeps hp hkept
  rw [hstep] at hnext
  exact ⟨hstep, (hp.again hM hstep).2, hnext⟩

/-- A round that returns 1 moves the offset on, but not behind the message, if an accepting step does. -/
theorem Rounds.advance (h : Rounds M live Kept message round ends part)
    (hstep : ∀ {p l}, live p → (M.step p l).1 = .again ∨ (M.step p l).1 = .stop 1 →
      M.offset p < M.offset (M.step p l).2 ∧ M.offset (M.step p l).2 ≤ M.offset p + l.length)
    (hp : M.Ready live message p) (hkept : Kept p) (hround : round p = some (ret, next)) (hret : 0 < ret) :
    M.offset p < M.offset next ∧ M.offset next ≤ message.length := by
  have hpart : part p = (ret, next) := Option.some.inj ((h.round_eq hp hkept).symm.trans hround)
  have heq := h.step_eq p
  rw [hpart] at heq
  have hnext : (M.step p (message.drop (M.offset p))).2 = next := by
    rw [heq]
    split_ifs <;> rfl
  have haccepts : (M.step p (message.drop (M.offset p))).1 = .again ∨ (M.step p (message.drop (M.offset p))).1 = .stop 1 := by
    rw [heq]
    split_ifs
    · exact .inr rfl
    · exact .inl (if_pos hret)
  have hforward := hstep hp.1 haccepts
  have hinside := hp.2
  rw [hnext, List.length_drop] at hforward
  omega

theorem Rounds.of_iteration (h : Rounds M live Kept message round ends part) (hM : M.Resumable live R)
    (hp : M.Ready live message entry) (hkept : Kept entry) (hq : Iteration round ends entry q) :
    M.Ready live message q ∧ Kept q := by
  induction hq with
  | enter => exact ⟨hp, hkept⟩
  | again _ hround hends hret ih => exact (h.again hM ih.1 ih.2 hround hends hret).2

/-- The loop ends in bounds, with the result of the machine. -/
theorem Rounds.doWhile_eq (h : Rounds M live Kept message round ends part) (hM : M.Resumable live R)
    (hp : M.Ready live message p) (hkept : Kept p) (hrounds : message.length - M.offset p < rounds) :
    Access.doWhile round ends rounds p = some (retOf (M.run message p).1, (M.run message p).2) := by
  rw [← Machine.loop_fuel hM rounds hp hrounds]
  induction rounds generalizing p with
  | zero => omega
  | succ rounds ih =>
      rcases hpart : part p with ⟨ret, next⟩
      have hround : round p = some (ret, next) := (h.round_eq hp hkept).trans (congrArg some hpart)
      have hstep := h.step_eq p
      rw [hpart] at hstep
      simp only [Access.doWhile, hround, Option.bind_eq_bind, Option.bind_some]
      cases hends : ends p next with
      | true =>
          rw [hends, if_pos rfl] at hstep
          rw [if_pos rfl, Machine.loop_of_ne_again (by rw [hstep]; nofun), hstep]
          rfl
      | false =>
          rw [hends, if_neg Bool.false_ne_true] at hstep
          rw [if_neg Bool.false_ne_true]
          by_cases hret : 0 < ret
          · obtain ⟨hagain, hready, hnext⟩ := h.again hM hp hkept hround hends hret
            have hforward := (hp.again hM hagain).1
            have hinside := hready.2
            rw [if_pos hret, Machine.loop_again hagain]
            exact ih hready hnext (by omega)
          · have hverdict : verdictOf ret ≠ .again := by
              simp only [verdictOf, if_neg hret]
              split_ifs <;> nofun
            have hcode : retOf (verdictOf ret) = ret := by
              simp only [verdictOf, if_neg hret]
              split_ifs with hzero
              · exact hzero.symm
              · rfl
            rw [if_neg hret, Machine.loop_of_ne_again (by rw [hstep]; exact hverdict), hstep, hcode]

end Loop

/-- Where the value of a header is read, its name ends in `namebuf`. -/
def NameEnds (p : HttpParser) : Prop := p.headerState = .headerValue → charNul ∈ p.namebuf.toList

/-- What a round of the header loop does with the bytes from the offset on. -/
def headerPart (p : HttpParser) (ptr : Bytes) : Int × HttpParser :=
  match p.headerState with
  | .startLine => parseStartLine ptr p
  | .headerValue => parseHeaderValue ptr p
  | _ => parseHeaderName ptr p

variable {p q next : HttpParser} {l message buf : Bytes} {ret : Int} {rounds : Nat}

theorem headerRound_access (hoffset : p.headerOffset ≤ message.length) (hname : NameEnds p) :
    Access.headerRound message p = some (headerPart p (message.drop p.headerOffset)) := by
  have hlen : Access.remaining message.length p.headerOffset = some (message.drop p.headerOffset).length := by
    rw [Access.remaining, if_pos hoffset, List.length_drop]
  simp only [Access.headerRound, headerPart, hlen, Option.bind_eq_bind, Option.bind_some]
  cases hstate : p.headerState with
  | startLine => exact parseStartLine_access rfl
  | headerValue => exact parseHeaderValue_access rfl (hname hstate)
  | headerName => exact parseHeaderName_access rfl
  | headerComplete => exact parseHeaderName_access rfl

theorem parseHeaderStep_eq (p : HttpParser) (l : Bytes) : parseHeaderStep p l =
    if Access.endsHeader p (headerPart p l).2 then (.stop 1, (headerPart p l).2)
    else (verdictOf (headerPart p l).1, (headerPart p l).2) := by
  unfold parseHeaderStep headerPart Access.endsHeader
  cases hstate : p.headerState with
  | startLine => rfl
  | headerValue => rfl
  | headerName => simp
  | headerComplete => simp

theorem charNul_mem_iff {s : Bytes} : charNul ∈ s ↔ (cString s).length < s.length := by
  constructor
  · intro hmem
    by_contra hle
    have hself : cString s = s := (List.takeWhile_prefix _).eq_of_length_le (not_lt.mp hle)
    apply charNul_notMem_cString s
    rw [hself]
    exact hmem
  · intro hlt
    by_contra hnot
    rw [cString_of_not_mem hnot] at hlt
    exact Nat.lt_irrefl _ hlt

theorem nameEnds_iff : NameEnds p ↔ (p.headerState = .headerValue → p.name.length < httpHeaderNameMax) := by
  rw [NameEnds, charNul_mem_iff, Vector.length_toList, HttpParser.name]

theorem parseHeaderStep_nameEnds (hp : HeaderLive p) (hname : NameEnds p) : NameEnds (parseHeaderStep p l).2 := by
  rw [nameEnds_iff] at hname ⊢
  rcases parseHeaderStep_cases l hp with ⟨-, -, -, -, hends⟩ | ⟨-, hcomplete, -⟩ | ⟨-, hsame⟩
  · exact hends
  · simp [hcomplete]
  · intro hvalue
    rw [hsame.2 hvalue]
    apply hname
    rw [hsame.1]
    exact hvalue

theorem parseHeaderStep_rejects (hp : HeaderLive p) (h : (parseHeaderStep p l).1 ≠ .again)
    (hstop : (parseHeaderStep p l).1 ≠ .stop 1) :
    HeaderLive (parseHeaderStep p l).2 ∧ (parseHeaderStep p l).2.headerOffset = p.headerOffset := by
  rcases parseHeaderStep_cases l hp with ⟨hagain, -⟩ | ⟨haccepts, -⟩ | ⟨-, hsame⟩
  · exact absurd hagain h
  · exact absurd haccepts hstop
  · exact ⟨headerMachine_resumable.live_of_rel (sameScan_equivalence.symm hsame) hp,
      headerMachine_resumable.offset_eq hsame⟩

theorem header_rounds (message : Bytes) : Rounds headerMachine HeaderLive NameEnds message (Access.headerRound message)
    Access.endsHeader fun p => headerPart p (message.drop p.headerOffset) where
  round_eq := fun hp hname => headerRound_access hp.2 hname
  step_eq := fun p => parseHeaderStep_eq p (message.drop p.headerOffset)
  keeps := fun hp hname => parseHeaderStep_nameEnds hp.1 hname

theorem parseMessageHeader_access (hp : headerMachine.Ready HeaderLive message p) (hname : NameEnds p)
    (hrounds : message.length - p.headerOffset < rounds) :
    Access.parseMessageHeader rounds message p = some (parseMessageHeader message p) :=
  (header_rounds message).doWhile_eq headerMachine_resumable hp hname hrounds

theorem header_run_rejects (hp : headerMachine.Ready HeaderLive message p) :
    (headerMachine.run message p).1 ≠ .stop 1 → headerMachine.Ready HeaderLive message (headerMachine.run message p).2 := by
  refine Machine.run_end headerMachine_resumable
    (Q := fun result => result.1 ≠ .stop 1 → headerMachine.Ready HeaderLive message result.2) ?_ hp
  intro q hq hne hstop
  obtain ⟨hlive, hoffset⟩ := parseHeaderStep_rejects hq.1 hne hstop
  exact ⟨hlive, hoffset.trans_le hq.2⟩

theorem header_run_nameEnds (hp : headerMachine.Ready HeaderLive message p) (hname : NameEnds p) :
    NameEnds (headerMachine.run message p).2 :=
  Machine.run_keeps headerMachine_resumable (fun _ hq => parseHeaderStep_nameEnds hq.1) hp hname

theorem headerRound_advance (hp : headerMachine.Ready HeaderLive message p) (hname : NameEnds p)
    (hround : Access.headerRound message p = some (ret, next)) (hret : 0 < ret) :
    p.headerOffset < next.headerOffset ∧ next.headerOffset ≤ message.length :=
  (header_rounds message).advance (fun hlive haccepts => (parseHeaderStep_advance hlive haccepts).imp_right And.left)
    hp hname hround hret

/-- What a round of the chunk loop does with the bytes from the offset on. -/
def chunkPart (p : HttpParser) (ptr : Bytes) : Int × HttpParser :=
  match p.chunkState with
  | .chunkData => parseChunkData ptr p
  | _ => parseTrailerPart ptr p

theorem chunkRound_access (hoffset : p.chunkOffset ≤ message.length) :
    Access.chunkRound message p = some (chunkPart p (message.drop p.chunkOffset)) := by
  have hlen : Access.remaining message.length p.chunkOffset = some (message.drop p.chunkOffset).length := by
    rw [Access.remaining, if_pos hoffset, List.length_drop]
  simp only [Access.chunkRound, chunkPart, hlen, Option.bind_eq_bind, Option.bind_some]
  cases hstate : p.chunkState with
  | chunkData => exact parseChunkData_access rfl
  | trailerPart => exact parseTrailerPart_access rfl
  | chunkComplete => exact parseTrailerPart_access rfl

theorem parseChunkStep_eq (p : HttpParser) (l : Bytes) : parseChunkStep p l =
    if Access.endsChunks p (chunkPart p l).2 then (.stop 1, (chunkPart p l).2)
    else (verdictOf (chunkPart p l).1, (chunkPart p l).2) := by
  unfold parseChunkStep chunkPart Access.endsChunks
  cases hstate : p.chunkState with
  | chunkData => rfl
  | trailerPart => simp
  | chunkComplete => simp

theorem parseChunkStep_rejects (hp : ChunkLive p) (h : (parseChunkStep p l).1 ≠ .again)
    (hstop : (parseChunkStep p l).1 ≠ .stop 1) : (parseChunkStep p l).2 = p := by
  rcases parseChunkStep_cases l hp with ⟨hagain, -⟩ | ⟨haccepts, -⟩ | ⟨-, hsame⟩
  · exact absurd hagain h
  · exact absurd haccepts hstop
  · exact hsame

theorem chunk_rounds (Kept : HttpParser → Prop) (message : Bytes) (hkeeps : ∀ p l, Kept p → Kept (parseChunkStep p l).2) :
    Rounds chunkMachine ChunkLive Kept message (Access.chunkRound message) Access.endsChunks
      fun p => chunkPart p (message.drop p.chunkOffset) where
  round_eq := fun hp _ => chunkRound_access hp.2
  step_eq := fun p => parseChunkStep_eq p (message.drop p.chunkOffset)
  keeps := fun _ hkept => hkeeps _ _ hkept

theorem parseChunk_access (hp : chunkMachine.Ready ChunkLive message p) (hrounds : message.length - p.chunkOffset < rounds) :
    Access.parseChunk rounds message p = some (parseChunk message p) :=
  (chunk_rounds (fun _ => True) message fun _ _ _ => trivial).doWhile_eq chunkMachine_resumable hp trivial hrounds

theorem chunk_iteration (hp : chunkMachine.Ready ChunkLive message p) (hheader : p.headerOffset ≤ message.length)
    (hq : Iteration (Access.chunkRound message) Access.endsChunks p q) :
    chunkMachine.Ready ChunkLive message q ∧ q.headerOffset ≤ message.length := by
  have hkeeps : ∀ r l, r.headerOffset ≤ message.length → (parseChunkStep r l).2.headerOffset ≤ message.length := by
    intro r l hr
    rw [parseChunkStep_frame]
    exact hr
  exact (chunk_rounds _ message hkeeps).of_iteration chunkMachine_resumable hp hheader hq

theorem chunk_run_rejects (hp : chunkMachine.Ready ChunkLive message p) :
    (chunkMachine.run message p).1 ≠ .stop 1 → chunkMachine.Ready ChunkLive message (chunkMachine.run message p).2 := by
  refine Machine.run_end chunkMachine_resumable
    (Q := fun result => result.1 ≠ .stop 1 → chunkMachine.Ready ChunkLive message result.2) ?_ hp
  intro q hq hne hstop
  have hsame : (chunkMachine.step q (message.drop (chunkMachine.offset q))).2 = q :=
    parseChunkStep_rejects hq.1 hne hstop
  rw [hsame]
  exact hq

theorem chunkRound_advance (hp : chunkMachine.Ready ChunkLive message p)
    (hround : Access.chunkRound message p = some (ret, next)) (hret : 0 < ret) :
    p.chunkOffset < next.chunkOffset ∧ next.chunkOffset ≤ message.length :=
  (chunk_rounds (fun _ => True) message fun _ _ _ => trivial).advance
    (fun hlive haccepts => (parseChunkStep_advance hlive haccepts).imp_right And.left) hp trivial hround hret

end WorkflowModel.Http
