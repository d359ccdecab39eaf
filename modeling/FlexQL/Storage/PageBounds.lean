import FlexQL.Lib.Runs
import FlexQL.Storage.ColumnSpec

/-!
# Pages inside the mapping

The pager counts pages in 32 bits and maps one gigabyte. As long as it is not asked for more pages
than it has mapped, its pages lie inside the mapping and apart from each other, and an insertion
writes to one page only.
-/

namespace FlexQL

open Runs

namespace Pager

variable {p : Pager}

/-- Every page that is handed out lies inside the mapping. -/
def InBounds (p : Pager) : Prop := ∀ id off, p.getPage id = some off → off + pageSize ≤ mapSize

/-- Different pages do not overlap. -/
def Apart (p : Pager) : Prop :=
  ∀ id id' off off', id ≠ id' → p.getPage id = some off → p.getPage id' = some off' →
    off + pageSize ≤ off' ∨ off' + pageSize ≤ off

inductive Op
  | allocatePage
  | clear
  | getPage (id : ℕ)
  deriving DecidableEq, Repr

def step (p : Pager) : Op → Except Fault Pager
  | .allocatePage => .ok p.allocatePage.2
  | .clear => .ok p.clear
  | .getPage _ => .ok p

/-- A page is allocated only while the mapping has one left. -/
def Fits (p : Pager) (op : Op) : Prop := op = .allocatePage → p.numPages < mappedPages

instance (p : Pager) (op : Op) : Decidable (Fits p op) :=
  inferInstanceAs (Decidable (op = .allocatePage → p.numPages < mappedPages))

theorem getPage_eq_some {id off : ℕ} (h : p.getPage id = some off) :
    id < p.numPages ∧ off = pageOffset id := by
  unfold getPage at h
  split at h
  · cases h
  · cases h
    exact ⟨by omega, rfl⟩

theorem inBounds_of_le (h : p.numPages ≤ mappedPages) : p.InBounds := by
  intro id off hget
  obtain ⟨hlt, rfl⟩ := getPage_eq_some hget
  exact page_end (lt_of_lt_of_le hlt h)

theorem apart_of_le (h : p.numPages ≤ mappedPages) : p.Apart := by
  intro id id' off off' hne hget hget'
  obtain ⟨hlt, rfl⟩ := getPage_eq_some hget
  obtain ⟨hlt', rfl⟩ := getPage_eq_some hget'
  rw [pageOffset_of_lt (lt_of_lt_of_le hlt h), pageOffset_of_lt (lt_of_lt_of_le hlt' h), pageSize]
  omega

theorem step_le {op : Op} {p' : Pager} (h : p.numPages ≤ mappedPages) (hfits : Fits p op)
    (hstep : step p op = .ok p') : p'.numPages ≤ mappedPages := by
  cases op with
  | allocatePage =>
    have hlt := hfits rfl
    cases hstep
    exact (Nat.mod_le _ _).trans hlt
  | clear =>
    cases hstep
    exact Nat.zero_le _
  | getPage id =>
    cases hstep
    exact h

/-- Along a run that stays inside the mapping. -/
theorem run_le {ops : List Op} {p' : Pager} (h : p.numPages ≤ mappedPages)
    (hguard : Guarded step Fits p ops) (hrun : run step p ops = .ok p') :
    p'.numPages ≤ mappedPages := by
  induction ops generalizing p with
  | nil =>
    cases hrun
    exact h
  | cons op ops ih =>
    cases hstep : step p op with
    | error f => simp [run_cons_of_error _ hstep] at hrun
    | ok u =>
      rw [run_cons_of_ok _ hstep] at hrun
      exact ih (step_le h hguard.1 hstep) (hguard.2 u hstep) hrun

end Pager

namespace ColumnStore

variable {s : ColumnStore} {mem : ByteMemory} {block : List UInt8}

def insertStep (st : ColumnStore × ByteMemory) (block : List UInt8) :
    Except Fault (ColumnStore × ByteMemory) := st.1.insertFixed st.2 block

/-- The item has a size that fits on a page, and there is room for it or a page left. -/
structure TakesItem (st : ColumnStore × ByteMemory) (block : List UInt8) : Prop where
  pos : 0 < block.length
  le : block.length ≤ pageSize - headerSize
  room : st.1.HasRoom st.2 (.fixed block.length) ∨ st.1.numPages < mappedPages

instance (st : ColumnStore × ByteMemory) (block : List UInt8) : Decidable (TakesItem st block) :=
  have : Decidable (st.1.HasRoom st.2 (.fixed block.length)) := inferInstanceAs (Decidable (_ ∧ _))
  decidable_of_iff (0 < block.length ∧ block.length ≤ pageSize - headerSize ∧
      (st.1.HasRoom st.2 (.fixed block.length) ∨ st.1.numPages < mappedPages))
    ⟨fun h => ⟨h.1, h.2.1, h.2.2⟩, fun h => ⟨h.pos, h.le, h.room⟩⟩

/-- All that an insertion writes lies on the last page, which is mapped. -/
structure WritesOnePage (s : ColumnStore) (mem : ByteMemory) (s' : ColumnStore)
    (mem' : ByteMemory) (q : ℕ) : Prop where
  last : s'.numPages = q + 1
  mapped : pageOffset q + pageSize ≤ mapSize
  outside : ∀ a, a < pageOffset q ∨ pageOffset q + pageSize ≤ a → mem' a = mem a

theorem writesOnePage_of_inserted {s' : ColumnStore} {q : ℕ} {mem' : ByteMemory} {f : SlotFormat}
    (hins : Inserted s s' q) (hq : q < mappedPages)
    (hroom : numItems mem' (pageOffset q) < f.capacity) (hblock : block.length ≤ f.slotSize)
    (houtside : ∀ a, a < pageOffset q ∨ pageOffset q + pageSize ≤ a → mem' a = mem a) :
    WritesOnePage s mem s' (putItem mem' f q block) q := by
  refine ⟨hins.numPages_eq, page_end hq, fun a ha => ?_⟩
  rw [putItem_of_outside hroom hblock ha, houtside a ha]

/-- One insertion. -/
theorem InUse.insertFixed (h : s.InUse) (hfits : TakesItem (s, mem) block) :
    ∃ s' mem' q, s.insertFixed mem block = .ok (s', mem') ∧ s'.InUse ∧
      WritesOnePage s mem s' mem' q := by
  have hf := SlotFormat.fixed_sound hfits.pos hfits.le
  have hblock : block.length ≤ (SlotFormat.fixed block.length).slotSize := le_rfl
  by_cases hroom : s.HasRoom mem (.fixed block.length)
  · obtain ⟨s', hs', hins⟩ := insertItem_of_room h hroom hblock
    have hq : s.numPages - 1 < mappedPages := by
      have := h.fits
      have := hroom.1
      omega
    exact ⟨s', _, _, hs', hins.inUse hq, writesOnePage_of_inserted hins hq
      (SlotFormat.numItems_lt hroom.2) hblock fun a _ => rfl⟩
  · have hlt := hfits.room.resolve_left hroom
    obtain ⟨s', hs', hins⟩ := insertItem_of_newPage hf h hroom hlt hblock
    exact ⟨s', _, _, hs', hins.inUse hlt, writesOnePage_of_inserted hins hlt
      (numItems_clearPage mem _ _ ▸ hf.capacity_pos) hblock fun a ha => clearPage_of_outside ha⟩

/-- A run of insertions. -/
theorem InUse.run {blocks : List (List UInt8)} (h : s.InUse)
    (hguard : Guarded ColumnStore.insertStep TakesItem (s, mem) blocks) :
    ∃ s' mem', Runs.run ColumnStore.insertStep (s, mem) blocks = .ok (s', mem') ∧ s'.InUse := by
  induction blocks generalizing s mem with
  | nil => exact ⟨s, mem, rfl, h⟩
  | cons block blocks ih =>
    obtain ⟨u, mem₁, -, hu, hinUse, -⟩ := h.insertFixed hguard.1
    have hstep : ColumnStore.insertStep (s, mem) block = .ok (u, mem₁) := hu
    rw [run_cons_of_ok _ hstep]
    exact ih hinUse (hguard.2 _ hstep)

theorem init_inUse {filePath : Text} (hinit : init filePath mem = .ok s) : s.InUse := by
  rw [init_eq] at hinit
  cases hinit
  exact ⟨Nat.zero_le _, Or.inl rfl⟩

end ColumnStore

/-- In every run that never allocates more pages than are mapped, all pages lie inside the mapping
and apart, and every insertion writes to one page of the mapping. -/
theorem pages_of_run (ops : List Pager.Op) (hops : Guarded Pager.step Pager.Fits .init ops)
    (filePath : Text) (mem : ByteMemory) (s : ColumnStore)
    (hinit : ColumnStore.init filePath mem = .ok s) (blocks : List (List UInt8))
    (hblocks : Guarded ColumnStore.insertStep ColumnStore.TakesItem (s, mem) blocks) :
    (∀ past next p, ops = past ++ next → run Pager.step .init past = .ok p → p.InBounds ∧ p.Apart) ∧
    ∀ past block next, blocks = past ++ block :: next →
      ∃ u mem₁ u' mem₂ q, run ColumnStore.insertStep (s, mem) past = .ok (u, mem₁) ∧
        u.insertFixed mem₁ block = .ok (u', mem₂) ∧ u.WritesOnePage mem₁ u' mem₂ q := by
  constructor
  · rintro past next p rfl hrun
    have hle := Pager.run_le (Nat.zero_le _) hops.append.1 hrun
    exact ⟨Pager.inBounds_of_le hle, Pager.apart_of_le hle⟩
  · rintro past block next rfl
    obtain ⟨hpast, hnext⟩ := hblocks.append
    obtain ⟨u, mem₁, hu, hinUse⟩ := (ColumnStore.init_inUse hinit).run hpast
    obtain ⟨u', mem₂, q, hu', -, hwrites⟩ := hinUse.insertFixed (hnext _ hu).1
    exact ⟨u, mem₁, u', mem₂, q, hu, hu', hwrites⟩

/-- Two pages, and two items on one page. -/
theorem pages_of_run_two :
    (∀ past next p, [Pager.Op.allocatePage, .allocatePage] = past ++ next →
      run Pager.step .init past = .ok p → p.InBounds ∧ p.Apart) ∧
    ∀ past block next, [[1], [2]] = past ++ block :: next →
      ∃ u mem₁ u' mem₂ q,
        run ColumnStore.insertStep (⟨[], .init 256, 0, none, noPage⟩, fun _ => 0) past =
          .ok (u, mem₁) ∧
        u.insertFixed mem₁ block = .ok (u', mem₂) ∧ u.WritesOnePage mem₁ u' mem₂ q := by
  exact pages_of_run _ (by decide) [] (fun _ => 0) _ (ColumnStore.init_eq _ _) [[1], [2]]
    (by decide +kernel)

theorem Pager.run_allocatePage (n : ℕ) {p : Pager} (h : p.numPages + n < 2 ^ 32) :
    run Pager.step p (List.replicate n .allocatePage) =
      .ok { p with numPages := p.numPages + n } := by
  induction n generalizing p with
  | zero => rfl
  | succ n ih =>
    have hnum : p.allocatePage.2.numPages = p.numPages + 1 := Nat.mod_eq_of_lt (by omega)
    have hstep : Pager.step p .allocatePage = .ok p.allocatePage.2 := rfl
    rw [List.replicate_succ, run_cons_of_ok _ hstep, ih (by omega), hnum, Nat.add_assoc,
      Nat.add_comm 1 n]
    rfl

/-- The page behind the last mapped one starts where the mapping ends. -/
theorem not_inBounds_unmapped :
    ∃ p, run Pager.step .init (List.replicate (2 ^ 18 + 1) .allocatePage) = .ok p ∧
      p.getPage (2 ^ 18) = some (2 ^ 30) ∧ ¬ p.InBounds := by
  refine ⟨_, Pager.run_allocatePage _ (by decide), ?_⟩
  have hget : Pager.getPage ⟨0 + (2 ^ 18 + 1), []⟩ (2 ^ 18) = some (2 ^ 30) := by
    decide +kernel
  refine ⟨hget, fun h => ?_⟩
  have := h _ _ hget
  simp [pageSize, mapSize] at this

end FlexQL
