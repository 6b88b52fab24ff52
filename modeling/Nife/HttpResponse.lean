/-
Reading an HTTP response: which of its errors are final.
-/
import Nife.Lib.Bytes

namespace Nife.HttpResponse

open Bytes

def headMax : Nat := 2048

/-- Why a response is refused. -/
inductive Error
  | headTooLong | badStatusLine | badHeader | noContentLength | badContentLength | transferEncoding
  | bodyTooLong
  deriving DecidableEq, Repr

/-- Which part is being read. -/
inductive State
  | head
  | body (length seen : Nat)
  deriving DecidableEq, Repr

/-- `head` is the part of the buffer that is filled. -/
structure Response where
  head : Bytes
  status : Option Nat
  state : State
  deriving DecidableEq, Repr

def stripCrlf (line : Bytes) : Option Bytes :=
  let l := line.take (line.length - 2)
  if l ++ ascii "\r\n" = line ∧ 13 ∉ l ∧ 10 ∉ l then some l else none

def trim (s : Bytes) : Bytes :=
  let blank (b : UInt8) := b == 32 || b == 9
  ((s.dropWhile blank).reverse.dropWhile blank).reverse

def isAsciiDigit (b : UInt8) : Bool := 48 ≤ b && b ≤ 57

def parseDecimal (digits : Bytes) : Option Nat :=
  if digits = [] then none
  else digits.foldlM (fun n d =>
    let sum := n * 10 + (d - 48).toNat
    if isAsciiDigit d ∧ sum < UInt64.size then some sum else none) 0

def parseStatus (text : Bytes) : Option Nat :=
  if text.take 7 = ascii "HTTP/1." ∧ text[7]?.any isAsciiDigit ∧ text[8]? = some 32 ∧
      12 ≤ text.length ∧ text[12]?.all (· == 32) then
    (parseDecimal ((text.drop 9).take 3)).filter fun code => 100 ≤ code ∧ code ≤ 599
  else none

def eqIgnoreAsciiCase (name lower : Bytes) : Bool :=
  name.map (fun b => if 65 ≤ b ∧ b ≤ 90 then b + 32 else b) == lower

/-- One turn of the header loop. -/
def header (length : Option Nat) (line : Bytes) : Except Error (Option Nat) := do
  let line ← (stripCrlf line).elim (.error .badHeader) .ok
  let name := line.takeWhile (· != 58)
  if name = line ∨ name = [] ∨ name.any (· ≤ 32) then .error .badHeader
  else if eqIgnoreAsciiCase name (ascii "transfer-encoding") then .error .transferEncoding
  else if eqIgnoreAsciiCase name (ascii "content-length") then
    match parseDecimal (trim (line.drop (name.length + 1))) with
    | some n => if length.all (· == n) then .ok (some n) else .error .badContentLength
    | none => .error .badContentLength
  else .ok length

def parseHead (head : Bytes) : Except Error (Nat × Nat) := do
  let lines := (head.take (head.length - 2)).splitBy fun b _ => b != 10
  let status ← (lines.head?.bind stripCrlf >>= parseStatus).elim (.error .badStatusLine) .ok
  let length ← lines.tail.foldlM header none
  return (status, ← length.elim (.error .noContentLength) .ok)

/-- The loop that collects the head, and what it leaves of the input if the head ended. -/
def collect (head : Bytes) : Bytes → Bytes × Except Error (Option Bytes)
  | [] => (head, .ok none)
  | byte :: rest =>
    if head.length = headMax then (head, .error .headTooLong)
    else if ascii "\r\n\r\n" <:+ head ++ [byte] then (head ++ [byte], .ok (some rest))
    else collect (head ++ [byte]) rest

namespace Response

def new : Response := ⟨[], none, .head⟩

section

variable (r : Response)

/-- The end of `feed`, once the head is read. -/
def feedBody (length seen : Nat) (rest : Bytes) : Response × Except Error Bytes :=
  if length - seen < rest.length then (r, .error .bodyTooLong)
  else ({ r with state := .body length (seen + rest.length) }, .ok rest)

def feed (input : Bytes) : Response × Except Error Bytes :=
  match r.state with
  | .body length seen => r.feedBody length seen input
  | .head =>
    match collect r.head input with
    | (head, .error e) => ({ r with head }, .error e)
    | (head, .ok none) => ({ r with head }, .ok [])
    | (head, .ok (some rest)) =>
      match parseHead head with
      | .error e => ({ r with head }, .error e)
      | .ok (status, length) => feedBody ⟨head, some status, .body length 0⟩ length 0 rest

def isComplete : Bool :=
  match r.state with
  | .body length seen => length == seen
  | .head => false

/-- The reader after some reads. -/
def feeds (reads : List Bytes) : Response :=
  reads.foldl (fun r input => (r.feed input).1) r

/-- The head buffer is full, and the head in it was not accepted. -/
def Full : Prop := r.state = .head ∧ r.head.length = headMax

/-- What an error promises: from then on the response is never complete, and every read with a byte
in it is refused. -/
def Final : Prop := ∀ later, (r.feeds later).isComplete = false ∧
  ∀ input, input ≠ [] → ∃ e, ((r.feeds later).feed input).2 = .error e

/-- The head does not end before the buffer is full, which this read fills; and if it ends there,
`parse_head` refuses it. -/
def Fills (input : Bytes) : Prop :=
  r.state = .head ∧ headMax ≤ r.head.length + input.length ∧
    (∀ n, 0 < n → r.head.length + n < headMax → ¬ ascii "\r\n\r\n" <:+ r.head ++ input.take n) ∧
    (r.head.length < headMax → ascii "\r\n\r\n" <:+ (r.head ++ input).take headMax →
      ∃ e, parseHead ((r.head ++ input).take headMax) = .error e)

/-- The buffer and the counter of the body are within their bounds. -/
def Bounded : Prop :=
  match r.state with
  | .head => r.head.length ≤ headMax
  | .body length seen => seen ≤ length

end

variable {r r' : Response}

theorem feed_full (h : r.Full) (input : Bytes) :
    (r.feed input).1 = r ∧ (input ≠ [] → ∃ e, (r.feed input).2 = .error e) := by
  obtain ⟨head, status, state⟩ := r
  obtain ⟨hstate, hfull⟩ := h
  cases hstate
  rcases input with - | ⟨b, bs⟩
  · simp [feed, collect]
  · simp_all [feed, collect]

theorem feeds_full (h : r.Full) (reads : List Bytes) : r.feeds reads = r := by
  induction reads with
  | nil => rfl
  | cons input reads ih =>
    rw [feeds, List.foldl_cons, (feed_full h input).1]
    exact ih

theorem Bounded.feedBody {head : Bytes} {status : Option Nat} {length seen : Nat}
    (h : seen ≤ length) (rest : Bytes) :
    (Response.feedBody ⟨head, status, .body length seen⟩ length seen rest).1.Bounded := by
  unfold Response.feedBody
  split_ifs with hlong
  · exact h
  · show seen + rest.length ≤ length
    omega

theorem length_collect {head : Bytes} (h : head.length ≤ headMax) (input : Bytes) :
    (collect head input).1.length ≤ headMax := by
  induction input generalizing head with
  | nil => exact h
  | cons b rest ih =>
    rw [collect]
    split_ifs with hfull
    · exact h
    · simp only [List.length_append, List.length_singleton]
      omega
    · refine ih ?_
      simp only [List.length_append, List.length_singleton]
      omega

theorem Bounded.feed (h : r.Bounded) (input : Bytes) : (r.feed input).1.Bounded := by
  obtain ⟨head, status, state⟩ := r
  cases state with
  | body length seen => exact Bounded.feedBody h input
  | head =>
    have hlen := length_collect (h : head.length ≤ headMax) input
    simp only [Response.feed]
    split
    · next hc => rw [hc] at hlen; exact hlen
    · next hc => rw [hc] at hlen; exact hlen
    · next hc =>
      rw [hc] at hlen
      split
      · exact hlen
      · exact Bounded.feedBody (Nat.zero_le _) _

theorem bounded_feeds (reads : List Bytes) : (new.feeds reads).Bounded := by
  induction reads using List.reverseRecOn with
  | nil => exact Nat.zero_le _
  | append_singleton reads input ih =>
    rw [feeds, List.foldl_append]
    exact ih.feed input

/-- The head ends in a line feed. -/
theorem not_ends (head : Bytes) {b : UInt8} (hb : b ≠ 10) :
    ¬ ascii "\r\n\r\n" <:+ head ++ [b] := by
  rintro ⟨pre, hpre⟩
  have hlast := congrArg List.getLast? hpre
  have hfeed : (ascii "\r\n\r\n").getLast? = some 10 := rfl
  rw [List.getLast?_append, List.getLast?_concat, hfeed] at hlast
  exact hb (Option.some.inj hlast).symm

theorem collect_of_no_feed {head input : Bytes} (hinput : ∀ b ∈ input, b ≠ 10)
    (hroom : head.length + input.length ≤ headMax) :
    collect head input = (head ++ input, .ok none) := by
  induction input generalizing head with
  | nil => simp [collect]
  | cons b rest ih =>
    rw [List.length_cons] at hroom
    rw [collect, if_neg (by omega), if_neg (not_ends head (hinput b (by simp))),
      ih (fun c hc => hinput c (by simp [hc])) (by simp; omega)]
    simp

/-- Only a full head buffer makes an error final: anything else takes a byte, or is complete. -/
theorem final_iff (h : r.Bounded) : r.Final ↔ r.Full := by
  constructor
  · intro hfinal
    obtain ⟨hincomplete, hrefuse⟩ := hfinal []
    obtain ⟨head, status, state⟩ := r
    cases state with
    | body length seen =>
      obtain ⟨e, he⟩ := hrefuse [97] (by decide)
      have hle : seen ≤ length := h
      have hne : length ≠ seen := by simpa [feeds, isComplete] using hincomplete
      simp only [feeds, List.foldl_nil, Response.feed, Response.feedBody, List.length_singleton] at he
      rw [if_neg (by omega)] at he
      cases he
    | head =>
      refine ⟨rfl, ?_⟩
      show head.length = headMax
      by_contra hroom
      obtain ⟨e, he⟩ := hrefuse [97] (by decide)
      have hcollect : collect head [97] = (head ++ [97], .ok none) := by
        rw [collect, if_neg hroom, if_neg (not_ends head (by decide))]
        rfl
      change (Response.feed ⟨head, status, .head⟩ [97]).2 = _ at he
      simp only [Response.feed, hcollect] at he
      cases he
  · intro hfull later
    rw [feeds_full hfull]
    refine ⟨?_, fun input => (feed_full hfull input).2⟩
    rw [isComplete, hfull.1]

/-- Where the collecting loop stops with the buffer full, the head did not end before. -/
theorem length_collect_eq_iff {head : Bytes} (h : head.length ≤ headMax) (input : Bytes)
    (hend : (collect head input).2 ≠ .ok none) :
    (collect head input).1.length = headMax ↔ headMax ≤ head.length + input.length ∧
      ∀ n, 0 < n → head.length + n < headMax → ¬ ascii "\r\n\r\n" <:+ head ++ input.take n := by
  induction input generalizing head with
  | nil => exact absurd rfl hend
  | cons b rest ih =>
    rw [collect] at hend ⊢
    split_ifs at hend ⊢ with hfull hcrlf
    · refine ⟨fun _ => ⟨by omega, fun n hn hlt => by omega⟩, fun _ => hfull⟩
    · simp only [List.length_append, List.length_cons, List.length_nil]
      refine ⟨fun hlen => ⟨by omega, fun n hn hlt => by omega⟩, fun ⟨_, hno⟩ => ?_⟩
      by_contra hlt
      exact hno 1 (by omega) (by omega) hcrlf
    · have hlen : (head ++ [b]).length = head.length + 1 := by simp
      rw [ih (by omega) hend, hlen, List.length_cons]
      refine and_congr (by omega) ⟨fun hno n hn hlt => ?_, fun hno n hn hlt => ?_⟩
      · rcases n with - | - | n
        · omega
        · exact hcrlf
        · have hno' := hno (n + 1) (by omega) (by omega)
          rw [List.append_assoc] at hno'
          exact hno'
      · have hno' := hno (n + 1) (by omega) (by omega)
        rw [List.append_assoc]
        exact hno'

/-- The buffer that the loop leaves, and why it stopped. -/
theorem collect_cases (head input : Bytes) :
    (collect head input = (head ++ input, .ok none)) ∨
    (∃ n, 0 < n ∧ n ≤ input.length ∧ collect head input = (head ++ input.take n, .ok (some (input.drop n))) ∧
      ascii "\r\n\r\n" <:+ head ++ input.take n) ∨
    ∃ n, collect head input = (head ++ input.take n, .error .headTooLong) ∧
      (head ++ input.take n).length = headMax ∧
      (0 < n → ¬ ascii "\r\n\r\n" <:+ head ++ input.take n) := by
  induction input generalizing head with
  | nil => exact .inl (by simp [collect])
  | cons b rest ih =>
    rw [collect]
    split_ifs with hfull hcrlf
    · exact .inr (.inr ⟨0, by simp, by simpa using hfull, fun h => absurd h (by decide)⟩)
    · exact .inr (.inl ⟨1, by omega, by simp, by simp, by simpa using hcrlf⟩)
    · rcases ih (head ++ [b]) with hc | ⟨n, hn, hle, hc, hend⟩ | ⟨n, hc, hlen, hno⟩
      · exact .inl (by simpa using hc)
      · exact .inr (.inl ⟨n + 1, by omega, by simpa using hle, by simpa using hc, by simpa using hend⟩)
      · refine .inr (.inr ⟨n + 1, by simpa using hc, by simpa using hlen, fun _ => ?_⟩)
        rcases Nat.eq_zero_or_pos n with rfl | hn
        · simpa using hcrlf
        · simpa using hno hn

theorem take_eq_of_length {head input : Bytes} {n : Nat}
    (h : (head ++ input.take n).length = headMax) :
    (head ++ input).take headMax = head ++ input.take n := by
  conv_lhs => rw [← List.take_append_drop n input, ← List.append_assoc]
  exact List.take_left' h

theorem feed_error_full_iff (hb : r.Bounded) {input : Bytes} {e : Error}
    (h : r.feed input = (r', .error e)) : r'.Full ↔ r.Fills input := by
  obtain ⟨head, status, state⟩ := r
  cases state with
  | body length seen =>
    -- an overrun leaves the reader in the body
    simp only [Response.feed, Response.feedBody] at h
    split_ifs at h
    · cases h
      exact ⟨fun hfull => absurd hfull.1 (by simp), fun hfills => absurd hfills.1 (by simp)⟩
    · cases h
  | head =>
    have hlen := length_collect_eq_iff (hb : head.length ≤ headMax) input
    simp only [Response.feed] at h
    rcases collect_cases head input with hc | ⟨n, hn, hle, hc, hend⟩ | ⟨n, hc, hfull, hno⟩
    · rw [hc] at h
      cases h
    · rw [hc] at h hlen
      have hlen := hlen (by simp)
      rcases hp : parseHead (head ++ input.take n) with e' | ⟨code, length⟩
      · simp only [hp] at h
        cases h
        refine ⟨fun hfull => ?_, fun hfills => ⟨rfl, hlen.mpr ⟨hfills.2.1, hfills.2.2.1⟩⟩⟩
        obtain ⟨hroom, hbefore⟩ := hlen.mp hfull.2
        refine ⟨rfl, hroom, hbefore, fun _ _ => ⟨e, ?_⟩⟩
        rw [take_eq_of_length hfull.2]
        exact hp
      · simp only [hp, Response.feedBody] at h
        split_ifs at h
        · cases h
          refine ⟨fun hfull => absurd hfull.1 (by simp), fun ⟨_, hroom, hbefore, hrefused⟩ => ?_⟩
          have hfull := hlen.mpr ⟨hroom, hbefore⟩
          have hlt : head.length < headMax := by
            rw [List.length_append, List.length_take] at hfull
            omega
          rw [take_eq_of_length hfull] at hrefused
          obtain ⟨e', he'⟩ := hrefused hlt hend
          rw [hp] at he'
          cases he'
        · cases h
    · rw [hc] at h hlen
      cases h
      obtain ⟨hroom, hbefore⟩ := (hlen (by simp)).mp hfull
      refine ⟨fun _ => ⟨rfl, hroom, hbefore, fun hlt hend => ?_⟩, fun _ => ⟨rfl, hfull⟩⟩
      rw [take_eq_of_length hfull] at hend
      refine absurd hend (hno (Nat.pos_of_ne_zero ?_))
      rintro rfl
      simp only [List.take_zero, List.append_nil] at hfull
      exact absurd hfull hlt.ne

/-- **An error is final** exactly when the read fills the head buffer with a head that has not ended
or is refused. -/
theorem error_final_iff {reads : List Bytes} {refused : Bytes} {e : Error}
    (h : (new.feeds reads).feed refused = (r, .error e)) :
    r.Final ↔ (new.feeds reads).Fills refused := by
  have hbounded := bounded_feeds reads
  have hr : r.Bounded := by
    have hfed := hbounded.feed refused
    rw [h] at hfed
    exact hfed
  rw [final_iff hr]
  exact feed_error_full_iff hbounded h

end Response

def reply (length : String) : Bytes :=
  ascii "HTTP/1.0 200 OK\r\nContent-Length: " ++ ascii length ++ ascii "\r\n\r\n"

open Response

section Endless

variable {head : Bytes}

theorem fills_two (hlen : head.length = 2047) : Fills ⟨head, none, .head⟩ [97, 97] := by
  have hmax : headMax = 2048 := rfl
  refine ⟨rfl, ?_, fun n hn hlt => ?_, fun _ hend => ?_⟩
  · have htwo : ([97, 97] : Bytes).length = 2 := rfl
    dsimp only
    omega
  · dsimp only at hlt
    omega
  · have hcut : (head ++ [97] ++ [97]).take headMax = head ++ [97] := by
      refine List.take_left' ?_
      rw [List.length_append, hlen]
      rfl
    rw [List.append_assoc] at hcut
    change ascii "\r\n\r\n" <:+ (head ++ ([97] ++ [97])).take headMax at hend
    rw [hcut] at hend
    exact absurd hend (not_ends head (by decide))

/-- A head without a line feed is kept as it comes. -/
theorem feeds_no_feed (hlen : head.length = 2047) (hno : ∀ b ∈ head, b ≠ 10) :
    new.feeds [head] = ⟨head, none, .head⟩ := by
  have hmax : headMax = 2048 := rfl
  have hcollect : collect [] head = ([] ++ head, .ok none) :=
    collect_of_no_feed hno (by simp; omega)
  simp [feeds, new, Response.feed, hcollect]

/-- The second of two more bytes has no room. -/
theorem feed_two (hlen : head.length = 2047) : Response.feed ⟨head, none, .head⟩ [97, 97] =
    (⟨head ++ [97], none, .head⟩, .error .headTooLong) := by
  have hmax : headMax = 2048 := rfl
  have hcollect : collect head [97, 97] = (head ++ [97], .error .headTooLong) := by
    rw [collect, if_neg (by omega), if_neg (not_ends head (by decide)), collect,
      if_pos (by simp; omega)]
  simp [Response.feed, hcollect]

end Endless

/-- A head of 2047 bytes that has not ended. -/
def endless : Bytes := List.replicate 2047 97

theorem feeds_endless : new.feeds [endless] = ⟨endless, none, .head⟩ :=
  feeds_no_feed List.length_replicate fun b hb => by
    rw [List.eq_of_mem_replicate hb]
    decide

/-- Two more bytes are refused, and so is everything after them. -/
theorem error_final_iff_endless : ∃ r, (new.feeds [endless]).feed [97, 97] =
      (r, .error .headTooLong) ∧ r.Final := by
  have hfeed : (new.feeds [endless]).feed [97, 97] =
      (⟨endless ++ [97], none, .head⟩, .error .headTooLong) := by
    rw [feeds_endless]
    exact feed_two List.length_replicate
  refine ⟨_, hfeed, (error_final_iff hfeed).mpr ?_⟩
  rw [feeds_endless]
  exact fills_two List.length_replicate

/-- **Other errors are not**: a part of a refused body is taken when it is read again, and the
response is complete; and a refused head goes on. -/
theorem error_not_final : (new.feed (reply "1" ++ [97, 98])).2 = .error .bodyTooLong ∧
    ((new.feed (reply "1" ++ [97, 98])).1.feed [97]).2 = .ok [97] ∧
    (new.feeds [reply "1" ++ [97, 98], [97]]).isComplete ∧
    (new.feed (ascii "\r\n\r\n")).2 = .error .badStatusLine ∧
    ((new.feed (ascii "\r\n\r\n")).1.feed [97]).2 = .ok [] := by
  decide +kernel

end Nife.HttpResponse
