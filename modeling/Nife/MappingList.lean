/-
`AddressSpace::LIST`: what `list_mapping` reads and what it returns.

A cursor packs the physical address of a log page and an index into it, and comes back
from the program as it likes.  On a page of the space's own chain, whatever the index,
the walk stays on the chain, below each page's used count, and ends
(`listWalk_spec`); from cursor 0, feeding each returned cursor back enumerates the live
records, each once, in chain order (`enumerates_zero`).  On any other page the first
thing the walk does is read that page as a log page.

`listMapping_confined_iff` is the exact condition, over every state that the log's
operations reach.
-/
import Nife.MappingLog

namespace Nife

open Chains List

/-! ### The live records of a chain -/

/-- The live ones of `n` entries of page `p` from `i` on. -/
def liveRange (m : PhysMem) (p i n : Nat) : List LogEntry :=
  ((List.range' i n).map (logEntry m p)).filter (·.phys ≠ 0)

/-- The live entries of a chain from entry `i` of its first page on. -/
def remaining (m : PhysMem) : List Nat → Nat → List LogEntry
  | [], _ => []
  | p :: ps, i =>
    liveRange m p i (logUsed m p - i) ++ ps.flatMap fun q => liveRange m q 0 (logUsed m q)

/-- The live records of the space rooted at `root`: none when it is not registered. -/
def Log.Records (l : Log) (root : Nat) (es : List LogEntry) : Prop :=
  match l.registry.find root with
  | none => es = []
  | some space => ∃ ps, Chain (logNext l.mem) space.head ps ∧ es = remaining l.mem ps 0

/-- An access to the log of the space rooted at `root`: to a page of its chain, and to an
entry below that page's used count and inside the page. -/
def Log.OwnAccess (l : Log) (root : Nat) (a : Access) : Prop :=
  ∃ space, l.registry.find root = some space ∧
    match a with
    | .page p => OnChain l.mem space.head p
    | .entry p i => OnChain l.mem space.head p ∧ i < logUsed l.mem p ∧ i < logEntries

section

variable (m : PhysMem)

theorem liveRange_succ (p i n : Nat) : liveRange m p i (n + 1)
      = if (logEntry m p i).phys ≠ 0 then logEntry m p i :: liveRange m p (i + 1) n
        else liveRange m p (i + 1) n := by
  rw [liveRange, range'_succ, map_cons, liveRange]
  by_cases h : (logEntry m p i).phys = 0
  · simp [h]
  · simp [h]

theorem remaining_cons (p : Nat) (ps : List Nat) (i : Nat) :
    remaining m (p :: ps) i = liveRange m p i (logUsed m p - i) ++ remaining m ps 0 := by
  cases ps with
  | nil | cons q qs => rfl

/-! ### The scan of one page -/

theorem scanPage_reads (p n index : Nat) (a : Access) (ha : a ∈ (scanPage m p n index).1) :
    ∃ i, a = .entry p i ∧ i < index + n ∧ i < logEntries := by
  induction n generalizing index with
  | zero => cases ha
  | succ n ih =>
    rw [scanPage] at ha
    split at ha
    case isFalse => cases ha
    case isTrue hlt =>
      dsimp only at ha
      split at ha
      case isTrue =>
        rw [mem_singleton.mp ha]
        exact ⟨index, rfl, by omega, hlt⟩
      case isFalse =>
        rcases mem_cons.mp ha with rfl | ha
        · exact ⟨index, rfl, by omega, hlt⟩
        · obtain ⟨i, rfl, hi, hi'⟩ := ih (index + 1) ha
          exact ⟨i, rfl, by omega, hi'⟩

theorem scanPage_spec (p n index : Nat) (hn : n = 0 ∨ index + n ≤ logEntries) :
    ((scanPage m p n index).2 = .exhausted ∧ liveRange m p index n = []) ∨
    ∃ j e, (scanPage m p n index).2 = .hit j e.va ∧ j ≤ index + n ∧
      liveRange m p index n = e :: liveRange m p j (index + n - j) := by
  induction n generalizing index with
  | zero => exact .inl ⟨rfl, rfl⟩
  | succ n ih =>
    have hlt : index < logEntries := by omega
    rw [scanPage, if_pos hlt, liveRange_succ]
    by_cases h0 : (logEntry m p index).phys = 0
    · -- a tombstone: the scan goes on behind it
      have hne : ¬ (logEntry m p index).phys ≠ 0 := not_not.mpr h0
      simp only [if_neg hne]
      rcases ih (index + 1) (by omega) with ⟨hs, hl⟩ | ⟨j, e, hs, hj, hl⟩
      · exact .inl ⟨hs, hl⟩
      · refine .inr ⟨j, e, hs, by omega, ?_⟩
        rw [hl]
        congr 2
        omega
    · simp only [if_pos h0]
      refine .inr ⟨index + 1, logEntry m p index, rfl, by omega, ?_⟩
      congr 2
      omega

end

/-! ### The walk of a chain -/

variable {q j : Nat} {m : PhysMem} {e : LogEntry} {ps : List Nat} {pre suf : List Nat}

/-- **On a chain the walk stays on it and ends.**  It returns done when no live entry is
left, and otherwise the first one left, with the place behind it. -/
theorem listWalk_spec {p fuel : Nat} (hc : LogChain m p ps) (hf : ps.length < fuel) (index : Nat) :
    (∀ a ∈ (listWalk m fuel p index).1, ∃ q ∈ ps,
      a = .page q ∨ ∃ i, a = .entry q i ∧ i < logUsed m q ∧ i < logEntries) ∧
    (((listWalk m fuel p index).2 = .returned 0 0 ∧ remaining m ps index = []) ∨
    ∃ q suf j e, (∃ pre, ps = pre ++ q :: suf) ∧ j ≤ logEntries ∧
      (listWalk m fuel p index).2 = .returned (q ||| j) e.va ∧
      remaining m ps index = e :: remaining m (q :: suf) j) := by
  rcases fuel with - | fuel
  · cases hf
  induction ps generalizing p fuel index with
  | nil =>
    cases hc.chain
    rw [listWalk]
    exact ⟨by simp, .inl ⟨rfl, rfl⟩⟩
  | cons p' ps ih =>
    obtain ⟨hp0, hnext⟩ : p' ≠ 0 ∧ Chain (logNext m) (logNext m p') ps ∧ p = p' := by
      cases hc.chain with
      | cons h0 ht => exact ⟨h0, ht, rfl⟩
    obtain ⟨hnext, rfl⟩ := hnext
    have hused : logUsed m p ≤ logEntries := hc.used p (mem_cons_self ..)
    have htail : LogChain m (logNext m p) ps :=
      ⟨hnext, fun q hq => hc.frame q (mem_cons_of_mem _ hq),
        fun q hq => hc.used q (mem_cons_of_mem _ hq)⟩
    -- what the scan of the first page reads is below its used count
    have hscan : ∀ a ∈ (scanPage m p (logUsed m p - index) index).1, ∃ q ∈ p :: ps,
        a = .page q ∨ ∃ i, a = .entry q i ∧ i < logUsed m q ∧ i < logEntries := by
      intro a ha
      obtain ⟨i, rfl, hi, hi'⟩ := scanPage_reads _ _ _ _ _ ha
      refine ⟨p, mem_cons_self .., .inr ⟨i, rfl, ?_, hi'⟩⟩
      by_cases hle : index ≤ logUsed m p
      · omega
      · rw [Nat.sub_eq_zero_of_le (by omega)] at ha
        cases ha
    rw [listWalk, if_neg hp0, remaining_cons]
    rcases scanPage_spec m p (logUsed m p - index) index (by omega)
      with ⟨hs, hl⟩ | ⟨j, e, hs, hj, hl⟩
    · -- nothing live is left on this page: the walk moves on to the next
      have hlen : ps.length < fuel := by
        rw [length_cons] at hf
        omega
      rcases fuel with - | fuel
      · cases hlen
      obtain ⟨hreads, hout⟩ := ih htail 0 fuel hlen
      simp only [hs, hl, nil_append]
      refine ⟨?_, ?_⟩
      · intro a ha
        rw [cons_append, mem_cons, mem_append] at ha
        rcases ha with rfl | ha | ha
        · exact ⟨p, mem_cons_self .., .inl rfl⟩
        · exact hscan a ha
        · obtain ⟨q, hq, h⟩ := hreads a ha
          exact ⟨q, mem_cons_of_mem _ hq, h⟩
      · rcases hout with h | ⟨q, suf, j, e, ⟨pre, rfl⟩, h⟩
        · exact .inl h
        · exact .inr ⟨q, suf, j, e, ⟨p :: pre, rfl⟩, h⟩
    · have hle : index ≤ logUsed m p := by
        by_contra hgt
        rw [Nat.sub_eq_zero_of_le (by omega)] at hs
        cases hs
      simp only [hs, hl]
      refine ⟨?_, .inr ⟨p, ps, j, e, ⟨[], rfl⟩, ?_, rfl, ?_⟩⟩
      · intro a ha
        rcases mem_cons.mp ha with rfl | ha
        · exact ⟨p, mem_cons_self .., .inl rfl⟩
        · exact hscan a ha
      · omega
      · rw [remaining_cons, cons_append]
        congr 3
        omega

/-! ### Cursors -/

theorem cursorPage_or (hq : q % frameSize = 0) (hj : j ≤ logEntries) :
    cursorPage (q ||| j) = q ∧ cursorIndex (q ||| j) = j := by
  have hj' : j < frameSize := Nat.lt_of_le_of_lt hj (by decide)
  obtain ⟨k, rfl⟩ : ∃ k, q = 2 ^ 12 * k := Nat.dvd_of_mod_eq_zero hq
  rw [← Nat.two_pow_add_eq_or_of_lt hj', cursorPage]
  show (4096 * k + j) / 4096 * 4096 = 4096 * k ∧ (4096 * k + j) % 4096 = j
  change j < 4096 at hj'
  omega

theorem or_ne_zero (hq : q ≠ 0) (j : Nat) : q ||| j ≠ 0 := by
  intro h
  exact hq (Nat.or_eq_zero_iff.mp h).1

/-- Feeding each returned cursor back, from `cursor` on, gives the addresses `vas` and
then done. -/
inductive Enumerates (l : Log) (root : Nat) : Nat → List Nat → Prop
  | done {cursor va : Nat} : (listMapping l root cursor).2 = .returned 0 va →
      Enumerates l root cursor []
  | more {cursor next va : Nat} {vas : List Nat} : next ≠ 0 →
      (listMapping l root cursor).2 = .returned next va → Enumerates l root next vas →
      Enumerates l root cursor (va :: vas)

section Chain

variable {l : Log} {root : Nat} {space : SpaceLog} {ps : List Nat}

theorem listMapping_cursor (hf : l.registry.find root = some space) (hq0 : q ≠ 0)
    (hq : q % frameSize = 0) (hj : j ≤ logEntries) :
    listMapping l root (q ||| j) = listWalk l.mem (frameLimit + 1) q j := by
  obtain ⟨hpage, hindex⟩ := cursorPage_or hq hj
  simp only [listMapping, hf]
  rw [if_neg (or_ne_zero hq0 j), hpage, hindex]

theorem LogChain.drop {head : Nat}
    (hc : LogChain m head (pre ++ q :: suf)) : LogChain m q (q :: suf) where
  chain := hc.chain.drop
  frame p hp := hc.frame p (mem_append_right _ hp)
  used p hp := hc.used p (mem_append_right _ hp)

/-- **The resumed walk enumerates what is left**, each record once: the induction is on
how many records that is. -/
theorem enumerates_remaining (hf : l.registry.find root = some space) :
    ∀ (n : Nat) (q j : Nat) (suf : List Nat), (remaining l.mem (q :: suf) j).length = n →
      LogChain l.mem q (q :: suf) → j ≤ logEntries →
      Enumerates l root (q ||| j) ((remaining l.mem (q :: suf) j).map (·.va)) := by
  intro n
  induction n with
  | zero =>
    intro q j suf hn hc hj
    have hq0 : q ≠ 0 := hc.chain.ne_zero_of_mem (mem_cons_self ..)
    have hmap := listMapping_cursor hf hq0 (hc.frame q (mem_cons_self ..)).1 hj
    rw [length_eq_zero_iff] at hn
    obtain ⟨-, ⟨hout, -⟩ | ⟨_, _, _, _, _, _, _, hrem⟩⟩ :=
      listWalk_spec hc (Nat.lt_succ_of_le hc.length_le) j
    · rw [hn]
      exact Enumerates.done (by rw [hmap]; exact hout)
    · rw [hn] at hrem
      cases hrem
  | succ n ih =>
    intro q j suf hn hc hj
    have hq0 : q ≠ 0 := hc.chain.ne_zero_of_mem (mem_cons_self ..)
    have hmap := listMapping_cursor hf hq0 (hc.frame q (mem_cons_self ..)).1 hj
    obtain ⟨-, ⟨-, hrem⟩ | ⟨q', suf', j', e, ⟨pre, hpre⟩, hj', hout, hrem⟩⟩ :=
      listWalk_spec hc (Nat.lt_succ_of_le hc.length_le) j
    · rw [hrem] at hn
      cases hn
    · have hc' : LogChain l.mem q' (q' :: suf') := LogChain.drop (hpre ▸ hc)
      have hq0' : q' ≠ 0 := hc'.chain.ne_zero_of_mem (mem_cons_self ..)
      rw [hrem, length_cons] at hn
      rw [hrem]
      exact Enumerates.more (or_ne_zero hq0' j') (by rw [hmap]; exact hout)
        (ih q' j' suf' (by omega) hc' hj')

/-- **From cursor 0 the live records come out, each once, in chain order, and then
done.** -/
theorem enumerates_zero (hf : l.registry.find root = some space)
    (hc : LogChain l.mem space.head ps) :
    Enumerates l root 0 ((remaining l.mem ps 0).map (·.va)) := by
  have hmap : listMapping l root 0 = listWalk l.mem (frameLimit + 1) space.head 0 := by
    simp only [listMapping, hf, if_true]
  obtain ⟨-, ⟨hout, hrem⟩ | ⟨q, suf, j, e, ⟨pre, rfl⟩, hj, hout, hrem⟩⟩ :=
    listWalk_spec hc (Nat.lt_succ_of_le hc.length_le) 0
  · rw [hrem]
    exact Enumerates.done (by rw [hmap]; exact hout)
  · have hc' : LogChain l.mem q (q :: suf) := hc.drop
    have hq0 : q ≠ 0 := hc'.chain.ne_zero_of_mem (mem_cons_self ..)
    rw [hrem]
    exact Enumerates.more (or_ne_zero hq0 j) (by rw [hmap]; exact hout)
      (enumerates_remaining hf _ q j suf rfl hc' hj)

end Chain

/-! ### What `LIST` may touch -/

/-- `list_mapping` on `cursor` keeps to the log of the space rooted at `root`: every
access is to its chain, the walk ends, and what it returns is recorded live; and from
cursor 0 the walk enumerates the live records, each once, before done. -/
structure Log.ListConfined (l : Log) (root cursor : Nat) : Prop where
  own : ∀ a ∈ (listMapping l root cursor).1, l.OwnAccess root a
  ends : ∃ next va, (listMapping l root cursor).2 = .returned next va ∧
    (next ≠ 0 → ∃ es, l.Records root es ∧ va ∈ es.map (·.va))
  complete : ∃ es, l.Records root es ∧ Enumerates l root 0 (es.map (·.va))

/-- The cursor's page part is 0 or a page of the chain of the space rooted at `root`,
where there is one. -/
def Log.CursorOwned (l : Log) (root cursor : Nat) : Prop :=
  ∀ space, l.registry.find root = some space →
    cursorPage cursor = 0 ∨ OnChain l.mem space.head (cursorPage cursor)

theorem mem_remaining_zero :
    e ∈ remaining m ps 0 ↔ ∃ p ∈ ps, e ∈ liveRange m p 0 (logUsed m p) := by
  cases ps with
  | nil | cons p ps => simp [remaining]

theorem liveRange_subset {p i : Nat}
    (he : e ∈ liveRange m p i (logUsed m p - i)) : e ∈ liveRange m p 0 (logUsed m p) := by
  simp only [liveRange, mem_filter, mem_map, mem_range'_1] at he ⊢
  obtain ⟨⟨k, hk, hke⟩, hlive⟩ := he
  exact ⟨⟨k, by omega, hke⟩, hlive⟩

theorem remaining_subset
    (he : e ∈ remaining m (q :: suf) j) : e ∈ remaining m (pre ++ q :: suf) 0 := by
  rw [mem_remaining_zero]
  rw [remaining_cons, mem_append, mem_remaining_zero] at he
  rcases he with he | ⟨p, hp, he⟩
  · exact ⟨q, by simp, liveRange_subset he⟩
  · exact ⟨p, by simp [hp], he⟩

/-- A walk over part of a space's chain touches only that chain and returns only what is
recorded there. -/
theorem listWalk_own {l : Log} {root index : Nat} {space : SpaceLog} {ps qs : List Nat}
    (hf : l.registry.find root = some space) (hc : LogChain l.mem space.head ps)
    (hq : LogChain l.mem q qs) (hsub : ∀ p ∈ qs, p ∈ ps)
    (hrec : ∀ e ∈ remaining l.mem qs index, e ∈ remaining l.mem ps 0) :
    (∀ a ∈ (listWalk l.mem (frameLimit + 1) q index).1, l.OwnAccess root a) ∧
    ∃ next va, (listWalk l.mem (frameLimit + 1) q index).2 = .returned next va ∧
      (next ≠ 0 → ∃ es, l.Records root es ∧ va ∈ es.map (·.va)) := by
  obtain ⟨hreads, hout⟩ := listWalk_spec hq (Nat.lt_succ_of_le hq.length_le) index
  refine ⟨?_, ?_⟩
  · intro a ha
    obtain ⟨p, hp, rfl | ⟨i, rfl, hi, hi'⟩⟩ := hreads a ha
    · exact ⟨space, hf, hc.onChain_iff.mpr (hsub p hp)⟩
    · exact ⟨space, hf, hc.onChain_iff.mpr (hsub p hp), hi, hi'⟩
  · rcases hout with ⟨hret, -⟩ | ⟨q', suf', j, e, -, -, hret, hrem⟩
    · exact ⟨0, 0, hret, fun h => absurd rfl h⟩
    · refine ⟨_, _, hret, fun _ => ⟨remaining l.mem ps 0, ?_, ?_⟩⟩
      · simp only [Log.Records, hf]
        exact ⟨ps, hc.chain, rfl⟩
      · refine mem_map.mpr ⟨e, hrec e ?_, rfl⟩
        rw [hrem]
        exact mem_cons_self ..

/-- **`LIST` keeps to the named space's log exactly on the cursors whose page part is 0 or
on its chain.** -/
theorem listMapping_confined_iff {m : PhysMem} {l : Log}
    (h : Transition.Reach Log.step Log.Exclusive (Log.new m) l) (root cursor : Nat) :
    l.ListConfined root cursor ↔ l.CursorOwned root cursor := by
  have hinv := Log.inv_reach h
  constructor
  · intro hconf space hf
    by_contra hnot
    rw [not_or] at hnot
    obtain ⟨hpage, hoff⟩ := hnot
    -- the walk starts by reading the cursor's page as a log page
    have hfirst : Access.page (cursorPage cursor) ∈ (listMapping l root cursor).1 := by
      have hcur : cursor ≠ 0 := by
        rintro rfl
        exact hpage rfl
      simp only [listMapping, hf]
      rw [if_neg hcur, listWalk, if_neg hpage]
      dsimp only
      split <;> simp
    obtain ⟨space', hf', hon⟩ := hconf.own _ hfirst
    rw [hf, Option.some.injEq] at hf'
    subst hf'
    exact hoff hon
  · intro hown
    rcases hf : l.registry.find root with - | space
    · -- an unknown root: nothing is read and the listing is empty
      have hlist : ∀ c, listMapping l root c = ([], .returned 0 0) := by
        intro c
        simp only [listMapping, hf]
      have hrec : l.Records root [] := by simp only [Log.Records, hf]
      refine ⟨?_, ⟨0, 0, by rw [hlist], fun h => absurd rfl h⟩, [], hrec, ?_⟩
      · rw [hlist]
        simp
      · exact Enumerates.done (by rw [hlist])
    · obtain ⟨ps, hc⟩ := hinv.chains space (mem_of_find?_eq_some hf)
      have hcomplete : ∃ es, l.Records root es ∧ Enumerates l root 0 (es.map (·.va)) := by
        refine ⟨remaining l.mem ps 0, ?_, enumerates_zero hf hc⟩
        simp only [Log.Records, hf]
        exact ⟨ps, hc.chain, rfl⟩
      suffices hwalk : (∀ a ∈ (listMapping l root cursor).1, l.OwnAccess root a) ∧
          ∃ next va, (listMapping l root cursor).2 = .returned next va ∧
            (next ≠ 0 → ∃ es, l.Records root es ∧ va ∈ es.map (·.va)) from
        ⟨hwalk.1, hwalk.2, hcomplete⟩
      by_cases hcur : cursor = 0
      · -- from the head of the chain
        simp only [listMapping, hf]
        rw [if_pos hcur]
        exact listWalk_own hf hc hc (fun p hp => hp) fun e he => he
      · simp only [listMapping, hf]
        rw [if_neg hcur]
        rcases hown space hf with hzero | hon
        · -- page part 0: the walk is over before it starts
          rw [hzero, listWalk]
          exact ⟨by simp, 0, 0, rfl, fun h => absurd rfl h⟩
        · rw [hc.onChain_iff] at hon
          obtain ⟨pre, suf, rfl⟩ := append_of_mem hon
          exact listWalk_own hf hc hc.drop (fun p hp => mem_append_right _ hp)
            fun e he => remaining_subset he

/-- A frame of some other program at `0x4000_9000`, with 1, 1 and 42 in its second, third
and fourth words. -/
def foreignMem : PhysMem := fun p w =>
  if p = 0x40009000 then (if w = 1 then 1 else if w = 2 then 1 else if w = 3 then 42 else 0) else 0

/-- One space, rooted at `0x4000_1000`, that has mapped nothing. -/
def emptySpace (m : PhysMem) : Log := (registerSpace (Log.new m) 0x40001000 0).1

theorem reach_emptySpace (m : PhysMem) :
    Transition.Reach Log.step Log.Exclusive (Log.new m) (emptySpace m) :=
  Transition.Reach.refl.tail (a := .registerSpace 0x40001000 0) trivial rfl

/-- The program that holds the empty space passes the other program's frame as a cursor:
`LIST` reads that frame as a log page and hands its fourth word back as an address. -/
theorem listMapping_reads_foreign_frame :
    ∃ m l, Transition.Reach Log.step Log.Exclusive (Log.new m) l ∧
      listMapping l 0x40001000 0x40009000
        = ([.page 0x40009000, .entry 0x40009000 0], .returned 0x40009001 42) ∧
      ¬ l.ListConfined 0x40001000 0x40009000 := by
  refine ⟨foreignMem, emptySpace foreignMem, reach_emptySpace foreignMem, rfl, ?_⟩
  intro hconf
  -- the space's chain is empty, so the page just read is on no chain
  have hpage : Access.page 0x40009000 ∈
      (listMapping (emptySpace foreignMem) 0x40001000 0x40009000).1 := mem_cons_self ..
  obtain ⟨space, hf, ps, hc, hp⟩ := hconf.own _ hpage
  cases hf
  rw [hc.eq_nil_of_zero] at hp
  cases hp

/-- The same space with one page mapped; its log page is `0x4000_5000`. -/
def oneMapped : Log where
  registry := ((Registry.new.claim ⟨0x40001000, 0, 0⟩).getD Registry.new).setHead 0x40001000 0x40005000
  mem := prependPage foreignMem 0x40005000 0 ⟨0x40101000, 0x11000, 0x40100000⟩

theorem reach_oneMapped : Transition.Reach Log.step Log.Exclusive (Log.new foreignMem) oneMapped := by
  refine (reach_emptySpace foreignMem).tail (a := .recordMapping (some 0x40005000) 0x40101000
    0x40001000 0x11000 (.capability 0x40100000)) ⟨by decide, by decide, by decide, ?_⟩ rfl
  -- no page is on a chain yet
  rintro ⟨space, hs, ps, hc, hp⟩
  have hlive : (emptySpace foreignMem).registry.live = [⟨0x40001000, 0, 0⟩] := rfl
  rw [hlive, mem_singleton] at hs
  rw [hs] at hc
  rw [hc.eq_nil_of_zero] at hp
  cases hp

/-- A cursor on the space's own log page, beside the other program's frame: `LIST` returns the
recorded address and keeps to its log. -/
theorem listMapping_confined_oneMapped : oneMapped.CursorOwned 0x40001000 0x40005000 ∧
    listMapping oneMapped 0x40001000 0x40005000
      = ([.page 0x40005000, .entry 0x40005000 0], .returned 0x40005001 0x11000) ∧
    oneMapped.ListConfined 0x40001000 0x40005000 := by
  have hown : oneMapped.CursorOwned 0x40001000 0x40005000 := by
    intro space hf
    cases hf
    exact .inr ⟨[0x40005000], Chain.cons (by decide) Chain.nil, mem_singleton_self _⟩
  exact ⟨hown, rfl, (listMapping_confined_iff reach_oneMapped 0x40001000 0x40005000).mpr hown⟩

end Nife
