/-
What a name of a generational table means over a whole run.  Beside the table stands the
account of every insert that returned a name and every remove that returned an entry.  As long
as no slot has been filled more than `2^32` times, no name is handed out twice, and a name
resolves exactly when the account says that its entry is still there (`name_means_its_entry`).

The generation of a slot is the number of times it has been emptied, modulo `2^32`; this is
the whole invariant.

A survey walks a table that changes under it, one entry at a time, and keeps a slot to go on from;
`survey_faithful` says what it still promises.
-/
import Nife.GenerationalTable
import Nife.Lib.Account

namespace Nife

open List Option Table Account

open Account (Standing)

variable {T : Type*}

/-- The operations of a run, with what they are called on. -/
inductive TableOp (T : Type*)
  | insertWith (f : Nat → T)
  | remove (name : Nat)

/-- A table and the account of what went in and out of it. -/
structure TableRun (T : Type*) where
  table : Table T
  account : List (Account.Entry Nat T)

namespace TableRun

/-- How often a slot was filled. -/
def fills (l : List (Account.Entry Nat T)) (slot : Nat) : Nat :=
  (Account.keys l).countP fun n => (Table.unpack n).1 = slot

def apply (s : TableRun T) : TableOp T → TableRun T
  | .insertWith f =>
    match s.table.insertWith f with
    | none => s
    | some (n, t) => ⟨t, .opened n (f n) :: s.account⟩
  | .remove n =>
    match s.table.removeEntry n with
    | (none, t) => ⟨t, s.account⟩
    | (some _, t) => ⟨t, .closed n :: s.account⟩

def run (size : Nat) (h : size < nameRadix) (ops : List (TableOp T)) : TableRun T :=
  ops.foldl apply ⟨.new size h, []⟩

/-! ### One operation -/

/-- **What one operation does**: nothing, a slot filled, or a slot emptied. -/
theorem apply_cases (s : TableRun T) (op : TableOp T) : s.apply op = s ∨
    (∃ f n t, s.table.insertWith f = some (n, t) ∧ s.apply op = ⟨t, .opened n (f n) :: s.account⟩) ∨
    (∃ n slot, s.table.slotOf n = some slot ∧
      s.apply op = ⟨s.table.remove n, .closed n :: s.account⟩) := by
  rcases op with f | n
  · simp only [apply]
    rcases h : s.table.insertWith f with - | ⟨n, t⟩
    · exact .inl rfl
    · exact .inr (.inl ⟨f, n, t, h, rfl⟩)
  · simp only [apply, removeEntry_eq]
    rcases hs : s.table.slotOf n with - | slot
    · rw [slotOf_eq_none hs, remove_of_none hs]
      exact .inl rfl
    · obtain ⟨-, v, hv⟩ := slotOf_eq_some_iff.mp hs
      rw [hv]
      exact .inr (.inr ⟨n, slot, hs, rfl⟩)

@[simp] theorem fills_opened (l : List (Account.Entry Nat T)) (n : Nat) (v : T) (slot : Nat) :
    fills (.opened n v :: l) slot = fills l slot + if (unpack n).1 = slot then 1 else 0 := by
  simp [fills, countP_cons]

@[simp] theorem fills_closed (l : List (Account.Entry Nat T)) (n slot : Nat) :
    fills (.closed n :: l) slot = fills l slot := rfl

theorem fills_le_apply (s : TableRun T) (op : TableOp T) (slot : Nat) :
    fills s.account slot ≤ fills (s.apply op).account slot := by
  rcases apply_cases s op with h | ⟨f, n, t, -, h⟩ | ⟨n, k, -, h⟩
  · rw [h]
  · rw [h, fills_opened]
    exact Nat.le_add_right ..
  · rw [h, fills_closed]

/-- **The invariant.** -/
structure Tracks (s : TableRun T) : Prop where
  /-- A filled slot's generation counts its fills but the present one. -/
  filled : ∀ slot c, s.table.cells[slot]? = some c → c.value.isSome →
    c.generation + 1 = fills s.account slot
  empty : ∀ slot c, s.table.cells[slot]? = some c → c.value = none →
    c.generation = fills s.account slot % nameRadix
  issued : ∀ n ∈ Account.keys s.account, (Table.unpack n).2 < fills s.account (Table.unpack n).1
  nodup : (Account.keys s.account).Nodup
  standing : ∀ n v, s.table.get n = some v ↔ Standing s.account n v

theorem tracks_new (size : Nat) (h : size < nameRadix) :
    Tracks (⟨.new size h, []⟩ : TableRun T) := by
  have hcell : ∀ {slot : Nat} {c : Cell T}, (new size h).cells[slot]? = some c →
      c = ⟨0, none⟩ := fun hc => eq_of_mem_replicate (mem_of_getElem? hc)
  refine ⟨?_, ?_, ?_, nodup_nil, ?_⟩
  · intro slot c hc hv
    rw [hcell hc] at hv
    cases hv
  · intro slot c hc _
    rw [hcell hc]
    rfl
  · intro n hn
    cases hn
  · intro n v
    refine iff_of_false (fun hget => ?_) not_standing_nil
    obtain ⟨c, hc, -, hv⟩ := get_eq_some.mp hget
    rw [hcell hc] at hv
    cases hv

variable {s : TableRun T}

/-- An insert hands out a name that was never handed out before. -/
theorem Tracks.insertWith (h : s.Tracks) {f : Nat → T} {n : Nat} {t : Table T}
    (hins : s.table.insertWith f = some (n, t))
    (hroom : ∀ slot, fills (.opened n (f n) :: s.account) slot ≤ nameRadix) :
    Tracks ⟨t, .opened n (f n) :: s.account⟩ := by
  obtain ⟨slot, c, hc, hempty, hn, hcells⟩ := insertWith_eq_some hins
  obtain ⟨-, hget⟩ := get_insertWith hins
  have hlt : slot < nameRadix := lt_trans (List.getElem?_eq_some_iff.mp hc).1 s.table.fits
  have hname : unpack n = (slot, c.generation) := by rw [hn, unpack_name _ hlt]
  -- the slot was emptied as often as it was filled, fewer than `2^32` times
  have hgen : c.generation = fills s.account slot := by
    have hle := hroom slot
    rw [fills_opened, hname, if_pos rfl] at hle
    rw [h.empty slot c hc hempty, Nat.mod_eq_of_lt hle]
  have hfresh : n ∉ keys s.account := by
    intro hmem
    have hlt := h.issued n hmem
    rw [hname, hgen] at hlt
    exact absurd hlt (lt_irrefl _)
  refine ⟨?_, ?_, ?_, nodup_cons.mpr ⟨hfresh, h.nodup⟩, ?_⟩
  · intro i d hd hv
    rw [hcells, getElem?_modify] at hd
    obtain ⟨e, he, rfl⟩ := map_eq_some_iff.mp hd
    rw [fills_opened, hname]
    by_cases hi : slot = i
    · subst hi
      rw [hc] at he
      cases he
      simp [hgen]
    · simp only [if_neg hi] at hv ⊢
      exact h.filled i e he hv
  · intro i d hd hv
    rw [hcells, getElem?_modify] at hd
    obtain ⟨e, he, rfl⟩ := map_eq_some_iff.mp hd
    rw [fills_opened, hname]
    by_cases hi : slot = i
    · rw [if_pos hi] at hv
      cases hv
    · simp only [if_neg hi] at hv ⊢
      exact h.empty i e he hv
  · intro m hm
    rw [fills_opened]
    rcases mem_cons.mp hm with rfl | hm
    · rw [hname, if_pos rfl, hgen]
      exact Nat.lt_succ_self _
    · exact Nat.lt_of_lt_of_le (h.issued m hm) (Nat.le_add_right ..)
  · intro m v
    rw [hget, standing_opened]
    by_cases hmn : m = n
    · subst hmn
      rw [if_pos rfl, Option.some.injEq]
      constructor
      · exact fun hv => .inl ⟨rfl, hv.symm⟩
      · rintro (⟨-, hv⟩ | hst)
        · exact hv.symm
        · exact absurd hst.mem_keys hfresh
    · simp [hmn, h.standing]

/-- A remove empties its slot and leaves every other name as it was. -/
theorem Tracks.remove (h : s.Tracks) {n slot : Nat} (hslot : s.table.slotOf n = some slot) :
    Tracks ⟨s.table.remove n, .closed n :: s.account⟩ := by
  have hcells := cells_remove hslot
  obtain ⟨c, hc, -, -, hsome⟩ := slotOf_eq_some hslot
  refine ⟨?_, ?_, h.issued, h.nodup, ?_⟩
  · intro i d hd hv
    rw [hcells, getElem?_modify] at hd
    obtain ⟨e, he, rfl⟩ := map_eq_some_iff.mp hd
    by_cases hi : slot = i
    · rw [if_pos hi] at hv
      cases hv
    · simp only [if_neg hi] at hv ⊢
      exact h.filled i e he hv
  · intro i d hd hv
    rw [hcells, getElem?_modify] at hd
    obtain ⟨e, he, rfl⟩ := map_eq_some_iff.mp hd
    by_cases hi : slot = i
    · subst hi
      rw [hc] at he
      cases he
      show (if slot = slot then retire c else c).generation = fills s.account slot % nameRadix
      rw [if_pos rfl, ← h.filled slot c hc hsome]
      rfl
    · simp only [if_neg hi] at hv ⊢
      exact h.empty i e he hv
  · intro m v
    rw [get_remove, standing_closed]
    by_cases hmn : m = n
    · simp [hmn]
    · simp [hmn, h.standing]

theorem Tracks.apply (h : s.Tracks) {op : TableOp T}
    (hroom : ∀ slot, fills (s.apply op).account slot ≤ nameRadix) : (s.apply op).Tracks := by
  rcases apply_cases s op with hs | ⟨f, n, t, hins, hs⟩ | ⟨n, slot, hslot, hs⟩
  · rw [hs]
    exact h
  · rw [hs] at hroom ⊢
    exact h.insertWith hins hroom
  · rw [hs]
    exact h.remove hslot

theorem Tracks.foldl (ops : List (TableOp T)) {s : TableRun T} (h : s.Tracks)
    (hroom : ∀ slot, fills (ops.foldl TableRun.apply s).account slot ≤ nameRadix) :
    (ops.foldl TableRun.apply s).Tracks := by
  induction ops using List.reverseRecOn with
  | nil => exact h
  | append_singleton ops op ih =>
    rw [foldl_append, foldl_cons] at hroom ⊢
    exact (ih fun slot => le_trans (fills_le_apply _ op slot) (hroom slot)).apply hroom

/-! ### What a name means -/

/-- What every name, the counts and the walks say about the entries of the account. -/
structure NamesEntries (s : TableRun T) : Prop where
  /-- No name is handed out twice: it means one insert. -/
  issued_once : (Account.keys s.account).Nodup
  get : ∀ n v, s.table.get n = some v ↔ Standing s.account n v
  getMut : ∀ n v, (s.table.getMut n).map Prod.fst = some v ↔ Standing s.account n v
  remove : ∀ n v, (s.table.removeEntry n).1 = some v ↔ Standing s.account n v
  slotOf : ∀ n slot, s.table.slotOf n = some slot ↔
    slot = (Table.unpack n).1 ∧ ∃ v, Standing s.account n v
  names_nodup : (s.table.iter.map Prod.fst).Nodup
  len : s.table.len = s.table.iter.length
  above_top : ∀ i, s.table.top ≤ i → ∀ c, s.table.cells[i]? = some c → c.value = none
  /-- A walk yields the entries at its slots and no others, each under its own name. -/
  iterFrom : ∀ start slot n v, (slot, n, v) ∈ s.table.iterFrom start ↔
    start ≤ slot ∧ slot = (Table.unpack n).1 ∧ Standing s.account n v
  /-- In slot order, so each once. -/
  ordered : ∀ start, (s.table.iterFrom start).Pairwise fun a b => a.1 < b.1
  iter : s.table.iter = (s.table.iterFrom 0).map Prod.snd
  liveSlots : s.table.liveSlots = (s.table.iterFrom 0).map Prod.fst
  values : s.table.values = (s.table.iterFrom 0).map fun e => e.2.2

theorem Tracks.namesEntries (h : s.Tracks) : s.NamesEntries where
  issued_once := h.nodup
  get := h.standing
  getMut n v := by rw [getMut_fst, h.standing]
  remove n v := by rw [removeEntry_eq, h.standing]
  slotOf n slot := by simp only [slotOf_eq_some_iff, h.standing]
  names_nodup := s.table.nodup_names_iter
  len := s.table.length_iter.symm
  above_top := s.table.above_top
  iterFrom start slot n v := by
    rw [mem_iterFrom, slotOf_eq_some_iff, h.standing]
    refine and_congr_right fun _ => ⟨fun ⟨⟨hs, _⟩, hst⟩ => ⟨hs, hst⟩, fun ⟨hs, hst⟩ => ?_⟩
    exact ⟨⟨hs, v, (h.standing n v).mpr hst⟩, hst⟩
  ordered := s.table.pairwise_iterFrom
  iter := s.table.iter_eq
  liveSlots := s.table.liveSlots_eq
  values := s.table.values_eq

/-- **A name never resolves to the wrong entry**, in any run that fills no slot more than
`2^32` times. -/
theorem name_means_its_entry (size : Nat) (hsize : size < nameRadix) (ops : List (TableOp T))
    (hreuse : ∀ slot, fills (run size hsize ops).account slot ≤ nameRadix) :
    (run size hsize ops).NamesEntries :=
  ((tracks_new size hsize).foldl ops hreuse).namesEntries

/-- One slot filled, emptied and filled again: the first name is dead. -/
theorem name_means_its_entry_reused : (∀ slot, fills (run 1 (by decide)
      [.insertWith fun _ => 'a', .remove 0, .insertWith fun _ => 'b']).account slot ≤ nameRadix) ∧
    (run 1 (by decide) [.insertWith fun _ => 'a', .remove 0, .insertWith fun _ => 'b']).NamesEntries := by
  have hreuse : ∀ slot, fills (run 1 (by decide)
      [.insertWith fun _ => 'a', .remove 0, .insertWith fun _ => 'b']).account slot ≤ nameRadix :=
    fun slot => le_trans countP_le_length (by decide)
  exact ⟨hreuse, name_means_its_entry 1 (by decide) _ hreuse⟩

end TableRun

/-! ### A survey -/

/-- A sweep that is resumed by slot: the table, the slot to go on from, and the names reported,
newest first. -/
structure Survey (T : Type*) where
  table : Table T
  cursor : Nat
  reported : List Nat

/-- Between two reports the table changes in any way. -/
inductive SurveyOp (T : Type*)
  | report
  | change (op : TableOp T)

namespace Survey

def step (s : Survey T) : SurveyOp T → Survey T
  | .report =>
    match (s.table.iterFrom s.cursor).head? with
    | none => s
    | some (slot, n, _) => { s with cursor := slot + 1, reported := n :: s.reported }
  | .change (.insertWith f) => { s with table := ((s.table.insertWith f).map Prod.snd).getD s.table }
  | .change (.remove n) => { s with table := (s.table.removeEntry n).2 }

def run (t : Table T) (ops : List (SurveyOp T)) : Survey T := ops.foldl step ⟨t, 0, []⟩

/-- **One step** reports nothing, or the live name with the lowest slot from the cursor on. -/
theorem step_cases (s : Survey T) (op : SurveyOp T) :
    ((s.step op).cursor = s.cursor ∧ (s.step op).reported = s.reported) ∨
    ∃ n v, s.cursor ≤ (unpack n).1 ∧ s.table.get n = some v ∧
      (∀ m w, s.table.get m = some w → s.cursor ≤ (unpack m).1 →
        (unpack n).1 ≤ (unpack m).1) ∧
      (s.step op).cursor = (unpack n).1 + 1 ∧ (s.step op).reported = n :: s.reported := by
  rcases op with - | f | n
  · have hordered := s.table.pairwise_iterFrom s.cursor
    unfold step
    rcases hfrom : s.table.iterFrom s.cursor with - | ⟨⟨slot, n, v⟩, rest⟩
    · exact .inl ⟨rfl, rfl⟩
    · obtain ⟨hge, hslot, hget⟩ := mem_iterFrom.mp (hfrom ▸ mem_cons_self)
      obtain ⟨rfl, -⟩ := slotOf_eq_some_iff.mp hslot
      refine .inr ⟨n, v, hge, hget, fun m w hw hm => ?_, rfl, rfl⟩
      have hthere := mem_iterFrom.mpr ⟨hm, slotOf_eq_some_iff.mpr ⟨rfl, w, hw⟩, hw⟩
      rw [hfrom] at hordered hthere
      rcases mem_cons.mp hthere with heq | hrest
      · exact (congrArg Prod.fst heq).ge
      · exact ((pairwise_cons.mp hordered).1 _ hrest).le
  all_goals exact .inl ⟨rfl, rfl⟩

variable (t : Table T) (ops : List (SurveyOp T))

theorem run_concat (op : SurveyOp T) : run t (ops ++ [op]) = (run t ops).step op := by
  rw [run, foldl_append]
  rfl

/-- The name resolves from before the survey until after it. -/
def Survives (n : Nat) : Prop := ∀ pre, pre <+: ops → ∃ v, (run t pre).table.get n = some v

/-- **The invariant**: of the names below the cursor, those that lived all along were reported. -/
structure Swept : Prop where
  below : ∀ n ∈ (run t ops).reported, (Table.unpack n).1 < (run t ops).cursor
  once : (run t ops).reported.Nodup
  survivor : ∀ n, Survives t ops n → (Table.unpack n).1 < (run t ops).cursor →
    n ∈ (run t ops).reported

theorem swept : Swept t ops := by
  induction ops using List.reverseRecOn with
  | nil =>
    refine ⟨?_, nodup_nil, fun n _ hlt => absurd hlt (Nat.not_lt_zero _)⟩
    intro n hn
    cases hn
  | append_singleton ops op ih =>
    have hlive : ∀ {n}, Survives t (ops ++ [op]) n → Survives t ops n := fun h pre hpre =>
      h pre (hpre.trans (prefix_append ..))
    rcases (run t ops).step_cases op with ⟨hcursor, hsame⟩ | ⟨n, v, hge, hn, hleast, hcursor, hstep⟩
    · rw [← run_concat] at hcursor hsame
      constructor
      · rw [hcursor, hsame]
        exact ih.below
      · rw [hsame]
        exact ih.once
      · rw [hcursor, hsame]
        exact fun n hn => ih.survivor n (hlive hn)
    · rw [← run_concat] at hcursor hstep
      constructor
      · rw [hcursor, hstep]
        intro m hm
        rcases mem_cons.mp hm with rfl | hm
        · exact Nat.lt_succ_self _
        · have := ih.below m hm
          omega
      · rw [hstep]
        refine nodup_cons.mpr ⟨fun hmem => ?_, ih.once⟩
        have := ih.below n hmem
        omega
      · rw [hcursor, hstep]
        intro m hm hlt
        by_cases hbelow : (unpack m).1 < (run t ops).cursor
        · exact mem_cons_of_mem _ (ih.survivor m (hlive hm) hbelow)
        · -- two live names of one slot are one name
          obtain ⟨w, hw⟩ := hlive hm ops (prefix_refl _)
          have hslot : (unpack m).1 = (unpack n).1 :=
            Nat.le_antisymm (Nat.le_of_lt_succ hlt) (hleast m w hw (Nat.le_of_not_lt hbelow))
          obtain ⟨c, hc, hgen, -⟩ := get_eq_some.mp hw
          obtain ⟨c', hc', hgen', -⟩ := get_eq_some.mp hn
          rw [hslot, hc', Option.some.injEq] at hc
          rw [← name_unpack m, ← name_unpack n, hslot, ← hgen, ← hgen', hc]
          exact mem_cons_self

/-- What a survey promises over the whole of it. -/
structure Faithful : Prop where
  once : (run t ops).reported.Nodup
  live : ∀ pre op n, pre ++ [op] <+: ops →
    (run t (pre ++ [op])).reported = n :: (run t pre).reported →
    ∃ v, (run t pre).table.get n = some v
  complete : (run t ops).table.iterFrom (run t ops).cursor = [] → ∀ n, Survives t ops n →
    (run t ops).reported.count n = 1

/-- **A resumed survey reports no name twice and misses no survivor**, from any table and whatever
is inserted and removed in between. -/
theorem survey_faithful : Faithful t ops where
  once := (swept t ops).once
  live pre op n _ hreport := by
    rw [run_concat] at hreport
    rcases (run t pre).step_cases op with ⟨-, hsame⟩ | ⟨m, v, -, hm, -, -, hstep⟩
    · exact absurd (congrArg List.length (hsame.symm.trans hreport)) (by simp)
    · obtain rfl := (List.cons.inj (hstep.symm.trans hreport)).1
      exact ⟨v, hm⟩
  complete hend n hn := by
    refine count_eq_one_of_mem (swept t ops).once ((swept t ops).survivor n hn ?_)
    by_contra hge
    obtain ⟨v, hv⟩ := hn ops (prefix_refl _)
    have hthere := Table.mem_iterFrom.mpr ⟨Nat.le_of_not_lt hge,
      Table.slotOf_eq_some_iff.mpr ⟨rfl, v, hv⟩, hv⟩
    rw [hend] at hthere
    cases hthere

end Survey

end Nife
