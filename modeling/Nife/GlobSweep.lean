/-
A pattern with more matches than one grant carries, swept in batches.

Each round the directory's entries are offered, in any order and some of them more than once, to an
expander that resumes behind the last name of the batch before.  One round collects the smallest
matches above the watermark, and says exactly whether there are more (`Collected`, kept by every
offer).  So the rounds are a `Sweep` of the directory's matches, and what holds of a sweep of sets
holds of the batches: they ascend in byte order, nothing that stays in the directory is missed, and
nothing is designated twice (`sweep_designates`).
-/
import Nife.Expand
import Nife.Lib.Fallible

namespace Nife.GrantPlan

open Bytes List NameSet Fallible Expander Resume

/-- What a directory yields: names, each with whether it is a directory. -/
abbrev Listing := List (Bytes × Bool)

def Expander.offerAll (e : Expander) (listing : Listing) : Expander :=
  listing.foldl (fun e entry => e.offer entry.1 entry.2) e

/-- One round of a sweep. -/
def batchOf (pattern : Bytes) (resume : Resume) (listing : Listing) : Except Refusal Batch :=
  ((Expander.batch pattern resume).offerAll listing).finishBatch

/-- The rounds of a sweep, one for each listing, until a batch is the last: the batches, and where
the sweep would go on if it has not ended. -/
def sweep (pattern : Bytes) : Resume → List Listing → Except Refusal (List Batch × Option Resume)
  | resume, [] => .ok ([], some resume)
  | resume, listing :: later => do
      let b ← batchOf pattern resume listing
      match b.next with
      | none => .ok ([b], none)
      | some resume =>
          let (batches, left) ← sweep pattern resume later
          .ok (b :: batches, left)

/-! ### One round -/

variable {pattern name : Bytes} {resume : Resume} {listing : Listing} {e : Expander} {b : Batch}

/-- The matches a listing holds. -/
def matchesIn (pattern : Bytes) (listing : Listing) : Set Bytes :=
  {name | name ∈ listing.map Prod.fst ∧ Glob.matches pattern name = true}

def Resume.mark : Resume → Option Bytes
  | start => none
  | after w => some w.bytes

/-- The matches a batch collects from: those that can travel in a grant, behind the watermark. -/
def batchable (pattern : Bytes) (resume : Resume) (listing : Listing) : Set Bytes :=
  (matchesIn pattern listing ∩ {name | fileNameFits name = true}) ∩ Above resume.mark

theorem Resume.passed_eq_false {r : Resume} : r.passed name = false ↔ name ∈ Above r.mark := by
  cases r with
  | start | after w => simp [passed, mark, Above]

theorem matchesIn_concat (offered : Listing) (isDir : Bool) :
    matchesIn pattern (offered ++ [(name, isDir)]) =
      matchesIn pattern offered ∪ {s | s = name ∧ Glob.matches pattern name = true} := by
  ext s
  simp only [matchesIn, map_append, map_cons, map_nil, mem_append,
    mem_singleton, Set.mem_union, Set.mem_ofPred_eq]
  constructor
  · rintro ⟨hs | rfl, hmatch⟩
    · exact .inl ⟨hs, hmatch⟩
    · exact .inr ⟨rfl, hmatch⟩
  · rintro (⟨hs, hmatch⟩ | ⟨rfl, hmatch⟩)
    · exact ⟨.inl hs, hmatch⟩
    · exact ⟨.inr rfl, hmatch⟩

variable {offered : Listing} {isDir : Bool} {rounds : List Listing} {batches : List Batch}
  {s : NameSet} {left : Option Resume} {n : Name}

theorem mem_batchable_concat {s : Bytes} :
    s ∈ batchable pattern resume (offered ++ [(name, isDir)]) ↔
      s ∈ batchable pattern resume offered ∨ s = name ∧ Glob.matches pattern name = true ∧
        fileNameFits name = true ∧ name ∈ Above resume.mark := by
  simp only [batchable, matchesIn_concat, Set.mem_inter_iff, Set.mem_union, Set.mem_ofPred_eq]
  constructor
  · rintro ⟨⟨hs | ⟨rfl, hmatch⟩, hfits⟩, habove⟩
    · exact .inl ⟨⟨hs, hfits⟩, habove⟩
    · exact .inr ⟨rfl, hmatch, hfits, habove⟩
  · rintro (⟨⟨hs, hfits⟩, habove⟩ | ⟨rfl, hmatch, hfits, habove⟩)
    · exact ⟨⟨.inl hs, hfits⟩, habove⟩
    · exact ⟨⟨.inr ⟨rfl, hmatch⟩, hfits⟩, habove⟩

theorem NameSet.contains_iff : s.contains name = true ↔ name ∈ s.texts := by
  simp [contains]

theorem NameSet.texts_eq_nil : s.texts = [] ↔ s.entries = [] := map_eq_nil_iff

/-- **Keeping the smallest is an ordered insertion cut off at the bound.** -/
theorem NameSet.texts_keepSmallest (hn : n.bytes ∉ s.texts) :
    (s.keepSmallest n isDir).1.texts = (s.texts.orderedInsert (· ≤ ·) n.bytes).take maxNames ∧
      (s.keepSmallest n isDir).2 = decide (s.texts.length < maxNames) := by
  have hlen : s.texts.length = s.entries.length := length_map _
  have hplace : s.entries.findIdx (fun e => decide (n.bytes < e.1.bytes)) =
      s.texts.findIdx fun t => decide (n.bytes < t) := by
    rw [texts, findIdx_map]
    rfl
  have hinsert : s.texts.orderedInsert (· ≤ ·) n.bytes =
      s.texts.take (s.texts.findIdx fun t => decide (n.bytes < t)) ++
        n.bytes :: s.texts.drop (s.texts.findIdx fun t => decide (n.bytes < t)) := by
    rw [← Smallest.orderedInsert_lt hn, orderedInsert_eq_take_drop,
      takeWhile_eq_take_findIdx_not, dropWhile_eq_drop_findIdx_not]
    simp only [decide_not, Bool.not_not]
  have hle := s.bounded
  unfold keepSmallest
  simp only [hplace]
  split
  · rename_i hfull
    -- full, and the name belongs behind everything held
    obtain ⟨hroom, hend⟩ := hfull
    rw [decide_eq_false_iff_not] at hroom
    refine ⟨?_, by rw [hlen]; simpa using hroom⟩
    have hall : s.texts.take maxNames = s.texts := take_of_length_le (by omega)
    rw [hinsert, hend, hall, take_append_of_le_length (by omega), hall]
  · refine ⟨?_, by rw [hlen]⟩
    rw [hinsert]
    simp [texts]

/-- What an expander holds once the entries of `offered` have been offered to a batch. -/
structure Collected (pattern : Bytes) (resume : Resume) (offered : Listing) (e : Expander) :
    Prop where
  pattern_eq : e.pattern = pattern
  resume_eq : e.resume = some resume
  refused : e.refused = none ↔ ∀ name ∈ matchesIn pattern offered, fileNameFits name = true
  smallest : Smallest maxNames (batchable pattern resume offered) e.set.texts
  more : e.more = true ↔ ∃ name ∈ batchable pattern resume offered, name ∉ e.set.texts

theorem Collected.nil : Collected pattern resume [] (batch pattern resume) where
  pattern_eq := rfl
  resume_eq := rfl
  refused := by simp [batch, matchesIn]
  smallest := by
    have hempty : batchable pattern resume [] = ∅ := by
      simp [batchable, matchesIn]
    rw [hempty]
    exact Smallest.nil _
  more := by simp [batch, batchable, matchesIn]

/-- An entry that adds nothing to what is collected from leaves the collection as it is. -/
theorem Collected.skip (h : Collected pattern resume offered e)
    (hfits : Glob.matches pattern name = true → fileNameFits name = true)
    (hold : name ∈ batchable pattern resume offered ∨ Glob.matches pattern name = false ∨
      name ∉ Above resume.mark) :
    Collected pattern resume (offered ++ [(name, isDir)]) e := by
  have hbatch : batchable pattern resume (offered ++ [(name, isDir)]) =
      batchable pattern resume offered := by
    ext s
    rw [mem_batchable_concat]
    refine or_iff_left_of_imp ?_
    rintro ⟨rfl, hmatch, -, habove⟩
    rcases hold with hold | hno | hno
    · exact hold
    · rw [hmatch] at hno
      cases hno
    · exact absurd habove hno
  refine ⟨h.pattern_eq, h.resume_eq, h.refused.trans ?_, hbatch ▸ h.smallest, hbatch ▸ h.more⟩
  rw [matchesIn_concat]
  constructor
  · rintro hall s (hs | ⟨rfl, hmatch⟩)
    · exact hall s hs
    · exact hfits hmatch
  · exact fun hall s hs => hall s (.inl hs)

/-- A match that cannot travel refuses the whole batch. -/
theorem Collected.refuse {r : Refusal}
    (h : Collected pattern resume offered e) (hmatch : Glob.matches pattern name = true)
    (hfits : fileNameFits name = false) :
    Collected pattern resume (offered ++ [(name, isDir)]) { e with refused := some r } := by
  have hbatch : batchable pattern resume (offered ++ [(name, isDir)]) =
      batchable pattern resume offered := by
    ext s
    rw [mem_batchable_concat]
    refine or_iff_left_of_imp ?_
    rintro ⟨-, -, hfit, -⟩
    rw [hfits] at hfit
    cases hfit
  refine ⟨h.pattern_eq, h.resume_eq, ?_, hbatch ▸ h.smallest, hbatch ▸ h.more⟩
  simp only [reduceCtorEq, false_iff, not_forall]
  refine ⟨name, ?_, by simp [hfits]⟩
  rw [matchesIn_concat]
  exact .inr ⟨rfl, hmatch⟩

/-- A match behind the watermark is put among the smallest. -/
theorem Collected.keep
    (h : Collected pattern resume offered e) (hmatch : Glob.matches pattern n.bytes = true)
    (hnew : n.bytes ∉ e.set.texts) (habove : n.bytes ∈ Above resume.mark) :
    Collected pattern resume (offered ++ [(n.bytes, isDir)]) { e with
        set := (e.set.keepSmallest n isDir).1
        more := e.more || !(e.set.keepSmallest n isDir).2 } := by
  have hbatch : batchable pattern resume (offered ++ [(n.bytes, isDir)]) =
      insert n.bytes (batchable pattern resume offered) := by
    ext s
    rw [mem_batchable_concat, or_comm]
    simp [hmatch, n.fits, habove]
  obtain ⟨htexts, hroom⟩ := @texts_keepSmallest isDir e.set n hnew
  refine ⟨h.pattern_eq, h.resume_eq, h.refused.trans ?_, ?_, ?_⟩
  · rw [matchesIn_concat]
    constructor
    · rintro hall s (hs | ⟨rfl, -⟩)
      · exact hall s hs
      · exact n.fits
    · exact fun hall s hs => hall s (.inl hs)
  · rw [hbatch, htexts]
    exact h.smallest.insert hnew
  · rw [hbatch, htexts, h.smallest.insert_more hnew, hroom, Bool.or_eq_true, h.more]
    simp

theorem Collected.offer (h : Collected pattern resume offered e) (name : Bytes) (isDir : Bool) :
    Collected pattern resume (offered ++ [(name, isDir)]) (e.offer name isDir) := by
  obtain ⟨_, set, refused, _, more⟩ := e
  obtain rfl := h.pattern_eq
  obtain rfl := h.resume_eq
  unfold Expander.offer
  split_ifs with hskip hfits
  · rcases hskip with hno | hheld
    · exact h.skip (by simp [hno]) (.inr (.inl hno))
    · have hold := h.smallest.mem name (NameSet.contains_iff.mp hheld)
      exact h.skip (fun _ => hold.1.2) (.inl hold)
  all_goals
    obtain ⟨hmatch, hnew⟩ := not_or.mp hskip
    rw [Bool.not_eq_false] at hmatch
    rw [NameSet.contains_iff] at hnew
  · exact h.refuse hmatch hfits
  · rw [Bool.not_eq_false] at hfits
    simp only [Name.new, hfits, dite_true]
    split
    · rename_i hpassed
      refine h.skip (fun _ => hfits) (.inr (.inr ?_))
      rw [← Resume.passed_eq_false, hpassed]
      exact Bool.false_ne_true.symm
    · rename_i hpassed
      rw [Bool.not_eq_true, Resume.passed_eq_false] at hpassed
      exact Collected.keep h (n := ⟨name, hfits⟩) hmatch hnew hpassed

theorem Collected.offerAll (h : Collected pattern resume offered e)
    (listing : Listing) : Collected pattern resume (offered ++ listing) (e.offerAll listing) := by
  induction listing generalizing offered e with
  | nil => simpa [offerAll] using h
  | cons entry listing ih =>
    have := ih (h.offer entry.1 entry.2)
    rwa [append_assoc, singleton_append] at this

theorem collected_batch (pattern : Bytes) (resume : Resume) (listing : Listing) :
    Collected pattern resume listing ((batch pattern resume).offerAll listing) :=
  Collected.nil.offerAll listing

/-- The batch is the smallest matches behind the watermark, and says whether there are more. -/
structure IsBatch (pattern : Bytes) (resume : Resume) (listing : Listing) (b : Batch) : Prop where
  smallest : Smallest maxNames (matchesIn pattern listing ∩ Above resume.mark) b.names.texts
  more : b.more = true ↔
    ¬ matchesIn pattern listing ∩ Above resume.mark ⊆ {name | name ∈ b.names.texts}

theorem IsBatch.texts_ne_nil (h : IsBatch pattern resume listing b) (hmore : b.more = true) :
    b.names.texts ≠ [] := by
  intro hnil
  have := h.smallest.length_eq (h.more.mp hmore)
  rw [hnil] at this
  cases this

theorem isBatch_of_batchOf (h : batchOf pattern resume listing = .ok b) :
    IsBatch pattern resume listing b := by
  have hall := collected_batch pattern resume listing
  unfold batchOf finishBatch at h
  split at h
  · cases h
  · rename_i hnone
    have hfits : matchesIn pattern listing ⊆ {name | fileNameFits name = true} :=
      hall.refused.mp hnone
    have hbatch : batchable pattern resume listing =
        matchesIn pattern listing ∩ Above resume.mark := by
      rw [batchable, Set.inter_eq_left.mpr hfits]
    split_ifs at h
    cases h
    refine ⟨hbatch ▸ hall.smallest, ?_⟩
    rw [Set.not_subset, ← hbatch]
    exact hall.more

/-- **A round is refused only if a match cannot travel or a sweep starts with none.** -/
theorem exists_batchOf (hfits : ∀ name ∈ matchesIn pattern listing, fileNameFits name = true)
    (hsome : resume = .start → (matchesIn pattern listing).Nonempty) :
    ∃ b, batchOf pattern resume listing = .ok b := by
  have hall := collected_batch pattern resume listing
  unfold batchOf finishBatch
  rw [hall.refused.mpr hfits]
  simp only
  split
  · rename_i hempty
    obtain ⟨hnil, hstart⟩ := hempty
    rw [hall.resume_eq] at hstart
    cases hstart
    -- a match there is would have been kept
    obtain ⟨name, hname⟩ := hsome rfl
    have hin : name ∈ batchable pattern .start listing :=
      ⟨⟨hname, hfits name hname⟩, fun k hk => nomatch hk⟩
    rw [← texts_eq_nil] at hnil
    have hfull := (hall.smallest.rest name hin (by simp [hnil])).1
    rw [hnil] at hfull
    cases hfull
  · exact ⟨_, rfl⟩

theorem batchOf_noMatch (hnone : matchesIn pattern listing = ∅) :
    batchOf pattern .start listing = .error .noMatch := by
  have hall := collected_batch pattern .start listing
  have hempty : ((batch pattern .start).offerAll listing).set.entries = [] := by
    refine texts_eq_nil.mp (eq_nil_iff_forall_not_mem.mpr fun name hname => ?_)
    have := (hall.smallest.mem name hname).1.1
    rw [hnone] at this
    exact this
  unfold batchOf finishBatch
  rw [hall.refused.mpr (by simp [hnone])]
  simp [hempty, hall.resume_eq]

/-! ### The sweep -/

/-- A batch that has no more names ends the sweep; one that has goes on behind its last name. -/
theorem Batch.next_cases (b : Batch) (hmore : b.more = true → b.names.texts ≠ []) :
    (b.more = false ∧ b.next = none) ∨
      ∃ n, b.more = true ∧ b.next = some (.after n) ∧ b.names.texts.getLast? = some n.bytes := by
  unfold Batch.next last
  cases hb : b.more with
  | false => exact .inl ⟨rfl, if_pos rfl⟩
  | true =>
    have hne : b.names.entries ≠ [] := mt texts_eq_nil.mpr (hmore hb)
    refine .inr ⟨(b.names.entries.getLast hne).1, rfl, ?_, ?_⟩
    · simp [getLast?_eq_some_getLast hne, Name.new_bytes]
    · rw [texts, getLast?_map, getLast?_eq_some_getLast hne]
      rfl

/-- **The batches of a sweep are the pieces of a sweep of the directory's matches.** -/
theorem sweep_run (h : sweep pattern resume rounds = .ok (batches, left)) :
    Sweep maxNames resume.mark (rounds.map (matchesIn pattern))
      (batches.map fun b => b.names.texts) left.isNone := by
  induction rounds generalizing resume batches left with
  | nil =>
    cases h
    exact .more _
  | cons listing later ih =>
    obtain ⟨b, hb, h⟩ := bind_eq_ok.mp h
    have hround := isBatch_of_batchOf hb
    rcases b.next_cases hround.texts_ne_nil with ⟨hm, hnext⟩ | ⟨n, hm, hnext, hlast⟩
    · rw [hnext] at h
      cases h
      refine .last _ hround.smallest ?_
      by_contra hleft
      rw [hround.more.mpr hleft] at hm
      cases hm
    · rw [hnext] at h
      obtain ⟨⟨batches', left'⟩, hrun, h⟩ := bind_eq_ok.mp h
      cases h
      exact .next hround.smallest (hround.more.mp hm) hlast (ih hrun)

/-- **A sweep over nameable matches is not refused**, except at the start for having none. -/
theorem exists_sweep
    (hfits : ∀ listing ∈ rounds, ∀ name ∈ matchesIn pattern listing, fileNameFits name = true)
    (hsome : resume = .start → ∀ listing ∈ rounds.head?, (matchesIn pattern listing).Nonempty) :
    ∃ result, sweep pattern resume rounds = .ok result := by
  induction rounds generalizing resume with
  | nil => exact ⟨_, rfl⟩
  | cons listing later ih =>
    obtain ⟨b, hb⟩ := exists_batchOf (hfits listing mem_cons_self)
      fun hstart => hsome hstart listing rfl
    have hround := isBatch_of_batchOf hb
    rcases b.next_cases hround.texts_ne_nil with ⟨-, hnext⟩ | ⟨n, -, hnext, -⟩
    · exact ⟨_, bind_eq_ok.mpr ⟨b, hb, by rw [hnext]⟩⟩
    · obtain ⟨result, hrun⟩ : ∃ result, sweep pattern (.after n) later = .ok result :=
        ih (fun l hl => hfits l (mem_cons_of_mem _ hl)) (fun h => nomatch h)
      exact ⟨_, bind_eq_ok.mpr ⟨b, hb, by
        rw [hnext]
        exact bind_eq_ok.mpr ⟨result, hrun, rfl⟩⟩⟩

def designated (batches : List Batch) : List Bytes := batches.flatMap fun b => b.names.texts

def distinctMatches (pattern : Bytes) (listing : Listing) : List Bytes :=
  ((listing.map Prod.fst).filter (Glob.matches pattern)).dedup

/-- What every batch of a sweep keeps to, however far the sweep has come. -/
structure InOrder (pattern : Bytes) (batches : List Batch) : Prop where
  /-- No batch holds more than eight names. -/
  bounded : ∀ b ∈ batches, b.names.texts.length ≤ 8
  /-- Every name designated matches the pattern. -/
  matching : ∀ b ∈ batches, ∀ name ∈ b.names.texts, Glob.matches pattern name = true
  /-- The names of a batch ascend strictly in byte order, and are strictly above all names of all
  earlier batches. -/
  ascending : (designated batches).Pairwise (· < ·)
  /-- No name is designated twice. -/
  once : (designated batches).Nodup

/-- What a sweep that has ended owes besides: `rounds` are the listings it saw, one for each of its
batches. -/
structure Designates (pattern : Bytes) (rounds : List Listing) (batches : List Batch) : Prop where
  rounds_eq : rounds.length = batches.length
  /-- A match that was there in all rounds is designated, in exactly one batch, whatever else came
  and went. -/
  complete : ∀ name, Glob.matches pattern name = true →
    (∀ listing ∈ rounds, name ∈ listing.map Prod.fst) →
    (batches.filter fun b => b.names.contains name).length = 1
  /-- Over a directory that did not change, and has matches, there are as many batches as their
  number divided by eight, rounded up. -/
  steady : ∀ dir : Listing, distinctMatches pattern dir ≠ [] →
    (∀ listing ∈ rounds, ∀ name, name ∈ listing.map Prod.fst ↔ name ∈ dir.map Prod.fst) →
    batches.length = ((distinctMatches pattern dir).length + 7) / 8


theorem designated_eq (batches : List Batch) :
    designated batches = (batches.map fun b => b.names.texts).flatten :=
  flatMap_def ..

theorem inOrder_of_sweep
    (h : sweep pattern resume rounds = .ok (batches, left)) : InOrder pattern batches := by
  have hrun := sweep_run h
  have hasc : (designated batches).Pairwise (· < ·) := designated_eq batches ▸ hrun.pairwise
  refine ⟨fun b _ => ?_, fun b hb name hname => ?_, hasc, hasc.imp ne_of_lt⟩
  · rw [texts, length_map]
    exact b.names.bounded
  · refine hrun.mem (P := {name | Glob.matches pattern name = true}) ?_ name ?_
    · intro S hS
      obtain ⟨listing, -, rfl⟩ := mem_map.mp hS
      exact fun s hs => hs.2
    · exact mem_flatten.mpr ⟨_, mem_map_of_mem hb, hname⟩

theorem length_filter_contains (hnodup : (designated batches).Nodup)
    (hname : name ∈ designated batches) :
    (batches.filter fun b => b.names.contains name).length = 1 := by
  induction batches with
  | nil => cases hname
  | cons b batches ih =>
    rw [designated] at hnodup hname
    obtain ⟨-, hrest, hdisjoint⟩ := nodup_append.mp hnodup
    by_cases hb : name ∈ b.names.texts
    · have hnone : (batches.filter fun b => b.names.contains name) = [] := by
        refine filter_eq_nil_iff.mpr fun b' hb' hin => ?_
        have hlater : name ∈ designated batches :=
          mem_flatMap.mpr ⟨b', hb', NameSet.contains_iff.mp hin⟩
        exact hdisjoint name hb name hlater rfl
      rw [filter_cons, if_pos (NameSet.contains_iff.mpr hb), hnone, length_singleton]
    · rw [filter_cons, if_neg (mt NameSet.contains_iff.mp hb)]
      exact ih hrest ((mem_append.mp hname).resolve_left hb)

theorem designates_of_sweep (h : sweep pattern .start rounds = .ok (batches, none)) :
    Designates pattern (rounds.take batches.length) batches := by
  have hrun := sweep_run h
  have hlen : batches.length ≤ rounds.length := by simpa using hrun.length_le_rounds
  refine ⟨by simpa using hlen, fun name hmatch hstays => ?_, fun dir hsome hsame => ?_⟩
  · refine length_filter_contains (inOrder_of_sweep h).once ?_
    refine hrun.complete (fun k hk => nomatch hk) fun S hS => ?_
    rw [length_map, ← map_take] at hS
    obtain ⟨listing, hlisting, rfl⟩ := mem_map.mp hS
    exact ⟨hstays listing hlisting, hmatch⟩
  · have hset : ∀ T ∈ (rounds.map (matchesIn pattern)).take
        (batches.map fun b => b.names.texts).length, T = matchesIn pattern dir := by
      intro T hT
      rw [length_map, ← map_take] at hT
      obtain ⟨listing, hlisting, rfl⟩ := mem_map.mp hT
      ext name
      exact and_congr_left fun _ => hsame listing hlisting name
    have hdistinct : matchesIn pattern dir ∩ Above start.mark =
        ((distinctMatches pattern dir).toFinset : Set Bytes) := by
      ext name
      simp [matchesIn, distinctMatches, mark, Above]
    have hne : (matchesIn pattern dir ∩ Above start.mark).Nonempty := by
      obtain ⟨name, hname⟩ := exists_mem_of_ne_nil _ hsome
      exact ⟨name, hdistinct ▸ by simpa using hname⟩
    have hcount := hrun.length_eq (by decide) hset hne
    have hnodup : (distinctMatches pattern dir).Nodup := nodup_dedup _
    rwa [length_map, hdistinct, Set.ncard_coe_finset, toFinset_card_of_nodup hnodup] at hcount

theorem sweep_take (h : sweep pattern resume rounds = .ok (batches, none)) :
    sweep pattern resume (rounds.take batches.length) = .ok (batches, none) := by
  induction rounds generalizing resume batches with
  | nil => cases h
  | cons listing later ih =>
    obtain ⟨b, hb, h⟩ := bind_eq_ok.mp h
    cases hnext : b.next with
    | none =>
      rw [hnext] at h
      cases h
      exact bind_eq_ok.mpr ⟨b, hb, by rw [hnext]⟩
    | some resume' =>
      rw [hnext] at h
      obtain ⟨⟨batches', left'⟩, hrun, h⟩ := bind_eq_ok.mp h
      cases h
      refine bind_eq_ok.mpr ⟨b, hb, ?_⟩
      rw [hnext]
      exact bind_eq_ok.mpr ⟨(batches', none), ih hrun, rfl⟩

/-- **A sweep ends**, since there are only so many names. -/
theorem sweep_ends {dir : ℕ → Listing}
    (hfits : ∀ n, ∀ name ∈ matchesIn pattern (dir n), fileNameFits name = true)
    (hsome : (matchesIn pattern (dir 0)).Nonempty) :
    ∃ n batches, sweep pattern .start ((List.range n).map dir) = .ok (batches, none) ∧
      batches.length = n := by
  let names : Set Bytes := {name | name.length ≤ maxFileName}
  let enough := names.ncard + 1
  have hdir : ∀ listing ∈ (List.range enough).map dir, ∃ n, listing = dir n := by
    intro listing hlisting
    obtain ⟨n, -, rfl⟩ := mem_map.mp hlisting
    exact ⟨n, rfl⟩
  obtain ⟨⟨batches, left⟩, h⟩ :
      ∃ result, sweep pattern .start ((List.range enough).map dir) = .ok result := by
    refine exists_sweep (fun listing hlisting => ?_) fun _ listing hhead => ?_
    · obtain ⟨n, rfl⟩ := hdir listing hlisting
      exact hfits n
    · rw [range_succ_eq_map] at hhead
      cases hhead
      exact hsome
  have hrun := sweep_run h
  cases left with
  | some r =>
    -- it cannot still be going on: it would have designated more names than there are
    have hle := hrun.length_le_ncard (finite_length_le maxFileName) (by decide) (by
      intro S hS name hname
      obtain ⟨listing, hlisting, rfl⟩ := mem_map.mp hS
      obtain ⟨n, rfl⟩ := hdir listing hlisting
      exact fileNameFits_length (hfits n name hname))
    simp only [length_map, length_range] at hle
    exact absurd hle (Nat.not_succ_le_self _)
  | none =>
    refine ⟨batches.length, batches, ?_, rfl⟩
    have hlen : batches.length ≤ enough := by simpa using hrun.length_le_rounds
    have := sweep_take h
    rwa [← map_take, take_range, Nat.min_eq_left hlen] at this

/-- **A batched sweep designates every match exactly once.**  The batches of a sweep, as far as it
has come, are in order; a sweep that has ended has designated every match that stayed, and over an
unchanging directory took as few batches as can be; and every sweep over nameable matches ends,
unless it is refused at the start for having no match. -/
theorem sweep_designates (pattern : Bytes) :
    (∀ rounds batches left, sweep pattern .start rounds = .ok (batches, left) →
      InOrder pattern batches) ∧
    (∀ rounds batches, sweep pattern .start rounds = .ok (batches, none) →
      Designates pattern (rounds.take batches.length) batches) ∧
    ∀ dir : ℕ → Listing,
      (∀ n, ∀ entry ∈ dir n, Glob.matches pattern entry.1 = true → fileNameFits entry.1 = true) →
      ((∃ entry ∈ dir 0, Glob.matches pattern entry.1 = true) →
        ∃ n batches, sweep pattern .start ((List.range n).map dir) = .ok (batches, none) ∧
          batches.length = n) ∧
      ((¬ ∃ entry ∈ dir 0, Glob.matches pattern entry.1 = true) →
        ∀ n, sweep pattern .start ((List.range (n + 1)).map dir) = .error .noMatch) := by
  refine ⟨fun _ _ _ h => inOrder_of_sweep h, fun _ _ h => designates_of_sweep h,
    fun dir hfits => ?_⟩
  have hmem : ∀ {n name}, name ∈ matchesIn pattern (dir n) ↔
      ∃ entry ∈ dir n, entry.1 = name ∧ Glob.matches pattern entry.1 = true := by
    intro n name
    rw [matchesIn, Set.mem_ofPred_eq, mem_map]
    constructor
    · rintro ⟨⟨entry, hentry, rfl⟩, hmatch⟩
      exact ⟨entry, hentry, rfl, hmatch⟩
    · rintro ⟨entry, hentry, rfl, hmatch⟩
      exact ⟨⟨entry, hentry, rfl⟩, hmatch⟩
  constructor
  · rintro ⟨entry, hentry, hmatch⟩
    refine sweep_ends (fun n name hname => ?_) ⟨entry.1, hmem.mpr ⟨entry, hentry, rfl, hmatch⟩⟩
    obtain ⟨entry', hentry', rfl, hmatch'⟩ := hmem.mp hname
    exact hfits n entry' hentry' hmatch'
  · intro hsome n
    have hnone : matchesIn pattern (dir 0) = ∅ := by
      ext name
      refine iff_of_false (fun hname => hsome ?_) (Set.notMem_empty name)
      obtain ⟨entry, hentry, -, hmatch⟩ := hmem.mp hname
      exact ⟨entry, hentry, hmatch⟩
    rw [range_succ_eq_map, map_cons, sweep, batchOf_noMatch hnone]
    rfl

def nineNames : Listing :=
  ["i", "h", "g", "f", "e", "d", "c", "b", "a", "g"].map fun s => (ascii s, false)

/-- The directory after the first batch has been removed and two names came in. -/
def rearranged : Listing := ["j", "aa", "i"].map fun s => (ascii s, false)

/-- Two batches, the second behind the last name of the first. -/
theorem sweep_designates_nine : ∃ batches,
    sweep (ascii "*") .start [nineNames, rearranged] = .ok (batches, none) ∧
      designated batches = ["a", "b", "c", "d", "e", "f", "g", "h", "i", "j"].map ascii ∧
      InOrder (ascii "*") batches ∧ Designates (ascii "*") [nineNames, rearranged] batches := by
  have heval : ((sweep (ascii "*") .start [nineNames, rearranged]).map
      fun r => (r.1.length, designated r.1, r.2)) =
      .ok (2, ["a", "b", "c", "d", "e", "f", "g", "h", "i", "j"].map ascii, none) := by
    decide +kernel
  cases hrun : sweep (ascii "*") .start [nineNames, rearranged] with
  | error r =>
    rw [hrun] at heval
    cases heval
  | ok r =>
    rw [hrun] at heval
    obtain ⟨batches, left⟩ := r
    simp only [Except.map, Except.ok.injEq, Prod.mk.injEq] at heval
    obtain ⟨hlen, hnames, rfl⟩ := heval
    have hall := (sweep_designates (ascii "*")).2.1 _ _ hrun
    rw [hlen] at hall
    exact ⟨batches, rfl, hnames, (sweep_designates (ascii "*")).1 _ _ _ hrun, hall⟩

end Nife.GrantPlan
