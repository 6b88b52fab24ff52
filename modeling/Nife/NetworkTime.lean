/-
The offset and the delay that one NTP exchange gives, in any era
(`crates/network_time_protocol`).
-/
import Nife.Lib.Bytes

namespace Nife.NetworkTime

/-- Ticks of 2⁻³² s since 1900, modulo 2⁶⁴. -/
abbrev Timestamp := BitVec 64

def since (a b : Timestamp) : Int := (a - b).toInt

/-- The result of `i128` arithmetic, if it does not overflow. -/
def i128 (n : Int) : Option Int :=
  if (BitVec.intMin 128).toInt ≤ n ∧ n ≤ (BitVec.intMax 128).toInt then some n else none

/-- Why a packet is rejected. -/
inductive Reject
  | length (n : Nat)
  | version (v : UInt8)
  | mode (m : UInt8)
  | kissOfDeath (code : Bytes)
  | stratum (s : UInt8)
  | unsynchronised | originMismatch | transmitZero | serverOrderReversed | clientOrderReversed
  | negativeDelay | rootDistance

/-- The fields of a packet. -/
structure Packet where
  (leap version mode stratum : UInt8)
  (poll precision : Int8)
  (rootDelay rootDispersion : Nat)
  referenceId : Bytes
  (reference origin receive transmit : Timestamp)

/-- What a reply says of the clock. -/
structure Sample where
  (offset delay : Int)
  response : Packet

/-- The number that the `n` bytes from `i` on are, the highest first. -/
def be (wire : Bytes) (i n : Nat) : Nat :=
  ((wire.drop i).take n).foldl (fun k b => k * 256 + b.toNat) 0

namespace Packet

def parse (wire : Bytes) : Except Reject Packet :=
  if wire.length ≠ 48 then .error (.length wire.length)
  else
    let byte i := wire.getD i 0
    let timestamp i := BitVec.ofNat 64 (be wire i 8)
    .ok ⟨byte 0 >>> 6, (byte 0 >>> 3) &&& 7, byte 0 &&& 7, byte 1, (byte 2).toInt8, (byte 3).toInt8,
      be wire 4 4, be wire 8 4, (wire.drop 12).take 4, timestamp 16, timestamp 24, timestamp 32,
      timestamp 40⟩

variable (p : Packet)

def rootDistance : Nat := min (p.rootDelay / 2 + p.rootDispersion) 0xffffffff

/-- The checks of `accept` before it takes differences. -/
def refused (nonce : Timestamp) : Option Reject :=
  if p.version ≠ 4 then some (.version p.version)
  else if p.mode ≠ 4 then some (.mode p.mode)
  else if p.origin ≠ nonce then some .originMismatch
  else if p.stratum = 0 then some (.kissOfDeath p.referenceId)
  else if 15 < p.stratum then some (.stratum p.stratum)
  else if p.leap = 3 then some .unsynchronised
  else if p.transmit = 0 then some .transmitZero
  else if 0x100000 < p.rootDistance then some .rootDistance
  else none

/-- The rest of `accept`, with the local times of the request and of the reply. -/
def sample (sent dest : Timestamp) : Option (Except Reject Sample) := do
  let server := since p.transmit p.receive
  if server < 0 then return .error .serverOrderReversed
  let round := since dest sent
  if round < 0 then return .error .clientOrderReversed
  let delay ← i128 (round - server)
  if delay < 0 then return .error .negativeDelay
  let sum ← i128 (since p.receive sent + since p.transmit dest)
  return .ok ⟨sum.tdiv 2, delay, p⟩

end Packet

/-- A question that was sent. -/
structure Query where
  (nonce sent : Timestamp)

/-- No result means that an operation overflowed. -/
def Query.accept (q : Query) (wire : Bytes) (dest : Timestamp) : Option (Except Reject Sample) :=
  match Packet.parse wire with
  | .error e => some (.error e)
  | .ok p =>
    match p.refused q.nonce with
    | some e => some (.error e)
    | none => p.sample q.sent dest

theorem since_ofInt {a b : Int} (h : (a - b).natAbs < 2 ^ 63) :
    since (.ofInt 64 a) (.ofInt 64 b) = a - b := by
  rw [since, BitVec.toInt_sub, BitVec.toInt_ofInt, BitVec.toInt_ofInt, Int.bmod_sub_bmod,
    Int.sub_bmod_bmod]
  exact Int.bmod_eq_of_le (by omega) (by omega)

theorem natAbs_since (a b : Timestamp) : (since a b).natAbs ≤ 2 ^ 63 := by
  have hlow := BitVec.le_toInt (a - b)
  have hhigh := BitVec.toInt_lt (x := a - b)
  rw [since]
  omega

theorem i128_eq {n : Int} (h : n.natAbs ≤ 2 ^ 64) : i128 n = some n := by
  refine if_pos ?_
  rw [show (BitVec.intMin 128).toInt = -170141183460469231731687303715884105728 by decide,
    show (BitVec.intMax 128).toInt = 170141183460469231731687303715884105727 by decide]
  omega

/-- **A sample never overflows.** -/
theorem sample_eq (p : Packet) (sent dest : Timestamp) :
    p.sample sent dest = some (
      if since p.transmit p.receive < 0 then .error .serverOrderReversed
      else if since dest sent < 0 then .error .clientOrderReversed
      else if since dest sent - since p.transmit p.receive < 0 then .error .negativeDelay
      else .ok ⟨(since p.receive sent + since p.transmit dest).tdiv 2,
        since dest sent - since p.transmit p.receive, p⟩) := by
  have h1 := natAbs_since p.transmit p.receive
  have h2 := natAbs_since dest sent
  have h3 := natAbs_since p.receive sent
  have h4 := natAbs_since p.transmit dest
  have hdelay : i128 (since dest sent - since p.transmit p.receive) = _ := i128_eq (by omega)
  have hsum : i128 (since p.receive sent + since p.transmit dest) = _ := i128_eq (by omega)
  simp only [Packet.sample, hdelay, hsum, Option.bind_eq_bind, Option.bind_some]
  split_ifs <;> rfl

/-- **The sample bounds the true offset**, wherever the four times lie: for a constant offset `θ` and
path delays `d1` and `d2`, the delay is exact and the offset is wrong by half of it.  No input
overflows, and no accepted delay is negative. -/
theorem sample_bounds_offset :
    (∀ (T1 T2 T3 T4 θ d1 d2 : Int) (q : Query) (wire : Bytes) (p : Packet), T1 ≤ T4 → T2 ≤ T3 →
      0 ≤ d1 → 0 ≤ d2 → T2 = T1 + θ + d1 → T4 = T3 - θ + d2 →
      θ.natAbs + d1 + d2 + (T3 - T2) < 2 ^ 62 →
      Packet.parse wire = .ok p → p.refused q.nonce = none → q.sent = .ofInt 64 T1 →
      p.receive = .ofInt 64 T2 → p.transmit = .ofInt 64 T3 →
      ∃ s, q.accept wire (.ofInt 64 T4) = some (.ok s) ∧ s.delay = d1 + d2 ∧
        (2 * s.offset - 2 * θ).natAbs ≤ s.delay + 1) ∧
    ∀ (q : Query) wire dest, ∃ r, q.accept wire dest = some r ∧ ∀ s, r = .ok s → 0 ≤ s.delay := by
  refine ⟨fun T1 T2 T3 T4 θ d1 d2 q wire p _ h23 hd1 hd2 hT2 hT4 hsmall hp hok h1 h2 h3 => ?_,
    fun q wire dest => ?_⟩
  · have hserver := since_ofInt (a := T3) (b := T2) (by omega)
    have hround := since_ofInt (a := T4) (b := T1) (by omega)
    have hthere := since_ofInt (a := T2) (b := T1) (by omega)
    have hback := since_ofInt (a := T3) (b := T4) (by omega)
    simp only [Query.accept, hp, hok, sample_eq, h1, h2, h3, hserver, hround, hthere, hback]
    rw [if_neg (by omega), if_neg (by omega), if_neg (by omega)]
    refine ⟨_, rfl, ?_, ?_⟩ <;> dsimp only
    · omega
    · rw [Int.tdiv_eq_ediv, show Int.sign 2 = 1 from rfl]
      split_ifs <;> omega
  · unfold Query.accept
    split
    · exact ⟨_, rfl, fun s hs => by cases hs⟩
    · split
      · exact ⟨_, rfl, fun s hs => by cases hs⟩
      · refine ⟨_, sample_eq .., fun s hs => ?_⟩
        split_ifs at hs
        cases hs
        dsimp only
        omega

/-- A reply of a server of stratum 1 to the nonce 9, received at 17 and sent at 20 by its clock. -/
def reply : Bytes :=
  [0x24, 1] ++ List.replicate 29 0 ++ [9] ++ List.replicate 7 0 ++ [17] ++ List.replicate 7 0 ++ [20]

/-- A request sent at 10 and answered at 18, by a clock that is 5 behind: the paths took 2 and 3. -/
theorem sample_bounds_offset_reply :
    ∃ s, Query.accept ⟨9, .ofInt 64 10⟩ reply (.ofInt 64 18) = some (.ok s) ∧ s.delay = 5 ∧
      (2 * s.offset - 10).natAbs ≤ s.delay + 1 := by
  cases hp : Packet.parse reply with
  | error e =>
    rw [show Packet.parse reply = .ok _ from rfl] at hp
    cases hp
  | ok p =>
    obtain rfl := Except.ok.inj (hp.symm.trans rfl)
    exact sample_bounds_offset.1 10 17 20 18 5 2 3 ⟨9, .ofInt 64 10⟩ reply _ (by decide) (by decide)
      (by decide) (by decide) (by decide) (by decide) (by decide) hp (by decide) rfl (by decide)
      (by decide)

end Nife.NetworkTime
