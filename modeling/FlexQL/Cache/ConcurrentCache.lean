import FlexQL.Cache.CacheProperties
import FlexQL.Lib.Fallible

/-!
# Threads that share a cache

`LRUCache` locks each of its calls, but `CacheManager` makes several of them: `get_page` looks, asks
the pager and puts, and `mark_dirty` looks and puts. In between, other threads make calls of theirs.
Every `get_page` still answers what the pager does. But a thread that has missed a page puts it with
the dirty flag cleared, and so takes away the mark that another thread has set in the meantime.
-/

namespace FlexQL

open Runs

namespace CacheManager

variable {m : CacheManager} {pageId : ℕ} {page : Option ℕ} {dirty : Bool}

theorem wellFormed_look (m : CacheManager) (pageId : ℕ) : (m.cache.get pageId).2.WellFormed :=
  m.wellFormed.get pageId

theorem points_look (m : CacheManager) (pageId : ℕ) : (m.cache.get pageId).2.Points := m.points.get pageId

/-- `cache.get(page_id)`. -/
def look (m : CacheManager) (pageId : ℕ) : CacheManager :=
  ⟨(m.cache.get pageId).2, m.pager, m.wellFormed_look pageId, m.points_look pageId⟩

/-- `cache.put(page_id, page, dirty)`. -/
def put (m : CacheManager) (pageId : ℕ) (page : Option ℕ) (dirty : Bool)
    (hpage : ∀ p ∈ page, p = pageOffset pageId) : CacheManager :=
  ⟨(m.cache.put m.pager pageId page dirty).1, (m.cache.put m.pager pageId page dirty).2,
    m.wellFormed.put _ _ _ _, m.points.put m.wellFormed _ hpage _⟩

theorem Faithful.look (h : m.Faithful) (pageId : ℕ) : Stepped m (m.look pageId) := by
  refine ⟨⟨fun n hn => h.allocated n (LRUCache.mem_get.mp hn), fun n hn => h.dirty n (LRUCache.mem_get.mp hn)⟩,
    [], rfl, ?_⟩
  rintro id ⟨n, hn, hid, hd⟩
  exact Or.inl ⟨n, LRUCache.mem_get.mpr hn, hid, hd⟩

section Put

variable (hpage : ∀ p ∈ page, p = pageOffset pageId)

@[simp] theorem put_numPages : (m.put pageId page dirty hpage).numPages = m.numPages :=
  LRUCache.put_numPages ..

theorem Faithful.put (h : m.Faithful) (halloc : page ≠ none → pageId < m.numPages)
    (hdirty : dirty = true → page ≠ none) : (m.put pageId page dirty hpage).Faithful := by
  constructor
  · intro n hn hne
    rw [put_numPages]
    rcases m.wellFormed.mem_put hn with heq | hn
    · rw [heq] at hne ⊢
      exact halloc hne
    · exact h.allocated n hn hne
  · intro n hn hd
    rcases m.wellFormed.mem_put hn with heq | hn
    · rw [heq] at hd ⊢
      exact hdirty hd
    · exact h.dirty n hn hd

/-- The page that was put is dirty just when it was put so. -/
theorem dirty_put : (m.put pageId page dirty hpage).Dirty pageId ↔ dirty = true := by
  obtain ⟨n, hn, heq⟩ := m.wellFormed.exists_put m.pager pageId page dirty
  constructor
  · rintro ⟨n', hn', hid, hd⟩
    have hsame := (m.put pageId page dirty hpage).wellFormed.eq_of_pageId hn' hn (by rw [hid, heq])
    rw [hsame, heq] at hd
    exact hd
  · intro hd
    exact ⟨n, hn, by rw [heq], by rw [heq, hd]⟩

variable (m dirty) in
/-- The other pages stay dirty or are flushed. -/
theorem put_writesBack : ∃ new, (m.put pageId page dirty hpage).pager.flushed = new ++ m.pager.flushed ∧
    ∀ id, id ≠ pageId → m.Dirty id → (m.put pageId page dirty hpage).Dirty id ∨ id ∈ new := by
  obtain ⟨new, hnew, hkeeps⟩ := (m.wellFormed.put_kept m.pager pageId page dirty).flushed
  refine ⟨new, hnew, ?_⟩
  rintro id hne ⟨n, hn, rfl, hd⟩
  rcases hkeeps n hn hne hd with ⟨n', hn', heq⟩ | hmem
  · exact Or.inl ⟨n', hn', by rw [heq], by rw [heq, hd]⟩
  · exact Or.inr hmem

/-- Putting a page that is in the cache flushes nothing. -/
theorem put_pager (h : m.Dirty pageId) : (m.put pageId page dirty hpage).pager = m.pager := by
  obtain ⟨n, hn, rfl, -⟩ := h
  have hmap := m.wellFormed.map_of_mem n hn
  simp only [put, LRUCache.put, hmap]

end Put

/-! ## The calls of the manager in steps -/

theorem getPage_of_some {p : ℕ} (h : (m.cache.get pageId).1 = some p) :
    m.getPage pageId = (some p, m.look pageId) := by
  unfold getPage
  split
  · rename_i p' hp'
    rw [h] at hp'
    cases hp'
    rfl
  · rename_i hnone
    rw [h] at hnone
    cases hnone

theorem getPage_of_none (h : (m.cache.get pageId).1 = none) : m.getPage pageId =
    (m.pager.getPage pageId, (m.look pageId).put pageId (m.pager.getPage pageId) false (by simp [Pager.getPage])) := by
  unfold getPage
  split
  · rename_i p hp
    rw [h] at hp
    cases hp
  · rfl

theorem markDirty_of_some {p : ℕ} (h : (m.cache.get pageId).1 = some p) : m.markDirty pageId =
    (m.look pageId).put pageId (some p) true (by simpa using m.wellFormed.get_eq m.points h) := by
  unfold markDirty
  split
  · rename_i p' hp'
    obtain rfl := Option.some.inj (h.symm.trans hp')
    rfl
  · rename_i hnone
    rw [h] at hnone
    cases hnone

theorem markDirty_of_none (h : (m.cache.get pageId).1 = none) : m.markDirty pageId = m.look pageId := by
  unfold markDirty
  split
  · rename_i p hp
    rw [h] at hp
    cases hp
  · rfl

end CacheManager

/-! ## The threads -/

/-- A call between two of its steps. -/
inductive PendingCall
  /-- `get_page` has missed the page. `known` pages were allocated when the call began. -/
  | missed (known pageId : ℕ)
  /-- `get_page` has asked the pager. -/
  | fetched (known pageId : ℕ) (page : Option ℕ) (points : ∀ p ∈ page, p = pageOffset pageId)
  /-- `mark_dirty` has found the page. -/
  | found (pageId page : ℕ) (points : page = pageOffset pageId)
  deriving DecidableEq

/-- What a call of `get_page` has answered. -/
structure PageAnswer where
  known : ℕ
  pageId : ℕ
  page : Option ℕ
  deriving DecidableEq, Repr

structure SharedCache where
  manager : CacheManager
  /-- The calls that are running, by their threads. -/
  pending : ℕ → Option PendingCall := fun _ => none
  answers : List PageAnswer := []

/-- A thread runs one call at a time. -/
inductive Busy
  | busy
  deriving DecidableEq, Repr

namespace SharedCache

def init (capacity : ℕ) : SharedCache := { manager := .init capacity }

inductive Action
  | getPage (thread pageId : ℕ)
  | markDirty (thread pageId : ℕ)
  /-- The thread takes the next step of its call. -/
  | proceed (thread : ℕ)
  | allocatePage
  | flush
  deriving DecidableEq, Repr

/-- The thread stops between two steps, or its call is over. -/
def setPending (s : SharedCache) (thread : ℕ) (call : Option PendingCall) : SharedCache :=
  { s with pending := Function.update s.pending thread call }

/-- `get_page` returns. -/
def answer (s : SharedCache) (known pageId : ℕ) (page : Option ℕ) : SharedCache :=
  { s with answers := s.answers ++ [⟨known, pageId, page⟩] }

def step (s : SharedCache) : Action → Except Busy SharedCache
  | .getPage thread pageId =>
    if (s.pending thread).isSome then .error .busy
    else
      let looked := { s with manager := s.manager.look pageId }
      match (s.manager.cache.get pageId).1 with
      | some page => .ok (looked.answer s.manager.numPages pageId (some page))
      | none => .ok (looked.setPending thread (some (.missed s.manager.numPages pageId)))
  | .markDirty thread pageId =>
    if (s.pending thread).isSome then .error .busy
    else
      let looked := { s with manager := s.manager.look pageId }
      match h : (s.manager.cache.get pageId).1 with
      | some page => .ok (looked.setPending thread
          (some (.found pageId page (s.manager.wellFormed.get_eq s.manager.points h))))
      | none => .ok looked
  | .proceed thread =>
    match s.pending thread with
    | none => .error .busy
    | some (.missed known pageId) => .ok (s.setPending thread
        (some (.fetched known pageId (s.manager.pager.getPage pageId) (by simp [Pager.getPage]))))
    | some (.fetched known pageId page h) =>
      let put := { s with manager := s.manager.put pageId page false h }
      .ok ((put.answer known pageId page).setPending thread none)
    | some (.found pageId page h) =>
      let put := { s with manager := s.manager.put pageId (some page) true (by simpa using h) }
      .ok (put.setPending thread none)
  | .allocatePage => .ok { s with manager := s.manager.allocatePage.2 }
  | .flush => .ok { s with manager := s.manager.flush }

variable {s s' : SharedCache} {a : Action} {thread pageId : ℕ}

/-- Allocations for which the 32-bit page counter does not wrap around. -/
def Counted (s : SharedCache) (a : Action) : Prop := a = .allocatePage → s.manager.numPages + 1 < 2 ^ 32

instance (s : SharedCache) (a : Action) : Decidable (Counted s a) :=
  inferInstanceAs (Decidable (a = .allocatePage → s.manager.numPages + 1 < 2 ^ 32))

/-- A thread that has missed a page puts it, and another thread has marked it in the meantime. -/
def Overwrites (s : SharedCache) (a : Action) (pageId : ℕ) : Prop :=
  ∃ thread known page h, a = .proceed thread ∧ s.pending thread = some (.fetched known pageId page h) ∧
    s.manager.Dirty pageId

/-! ## What a step does -/

/-- What holds of a call between two of its steps. -/
def SoundCall (numPages : ℕ) : PendingCall → Prop
  | .missed known _ => known ≤ numPages
  | .fetched known pageId page _ => (page = none → known ≤ pageId) ∧ (page ≠ none → pageId < numPages)
  | .found pageId _ _ => pageId < numPages

theorem SoundCall.mono {n n' : ℕ} {call : PendingCall} (h : SoundCall n call) (hle : n ≤ n') :
    SoundCall n' call := by
  cases call with
  | missed known pageId => exact Nat.le_trans h hle
  | fetched known pageId page points => exact ⟨h.1, fun hne => Nat.lt_of_lt_of_le (h.2 hne) hle⟩
  | found pageId page points => exact Nat.lt_of_lt_of_le h hle

/-- The answer of the pager at some time during the call. -/
def SoundAnswer (a : PageAnswer) : Prop :=
  a.page = some (pageOffset a.pageId) ∨ a.page = none ∧ a.known ≤ a.pageId

structure Sound (s : SharedCache) : Prop where
  faithful : s.manager.Faithful
  pending : ∀ thread call, s.pending thread = some call → SoundCall s.manager.numPages call
  answers : ∀ a ∈ s.answers, SoundAnswer a

theorem init_sound (capacity : ℕ) : (init capacity).Sound :=
  ⟨CacheManager.init_faithful capacity, by simp [init], by simp [init]⟩

/-- The manager changes, and no page is taken back. -/
theorem Sound.setManager (h : s.Sound) {m : CacheManager} (hm : m.Faithful)
    (hle : s.manager.numPages ≤ m.numPages) : Sound { s with manager := m } :=
  ⟨hm, fun thread call hcall => (h.pending thread call hcall).mono hle, h.answers⟩

theorem Sound.setPending (h : s.Sound) {call : Option PendingCall}
    (hcall : ∀ c ∈ call, SoundCall s.manager.numPages c) : (s.setPending thread call).Sound := by
  refine ⟨h.faithful, fun thread' c hc => ?_, h.answers⟩
  by_cases heq : thread' = thread
  · subst heq
    simp only [SharedCache.setPending, Function.update_self] at hc
    exact hcall c hc
  · simp only [SharedCache.setPending, Function.update_of_ne heq] at hc
    exact h.pending thread' c hc

theorem Sound.answer (h : s.Sound) {known : ℕ} {page : Option ℕ} (ha : SoundAnswer ⟨known, pageId, page⟩) :
    (s.answer known pageId page).Sound :=
  ⟨h.faithful, h.pending, List.forall_mem_append.mpr ⟨h.answers, List.forall_mem_singleton.mpr ha⟩⟩

/-- What a step leaves of the marks of a page. -/
structure Keeps (s s' : SharedCache) (lost : ℕ → Prop) : Prop where
  sound : s'.Sound
  writesBack : ∃ new, s'.manager.pager.flushed = new ++ s.manager.pager.flushed ∧
    ∀ pageId, s.manager.Dirty pageId → ¬ lost pageId → s'.manager.Dirty pageId ∨ pageId ∈ new

theorem Sound.of_stepped {lost : ℕ → Prop} (hs' : s'.Sound) (h : CacheManager.Stepped s.manager s'.manager) :
    Keeps s s' lost := by
  obtain ⟨new, hnew, hdirty⟩ := h.writesBack
  exact ⟨hs', new, hnew, fun pageId hd _ => hdirty pageId hd⟩

theorem Sound.getPage (h : s.Sound) (hstep : step s (.getPage thread pageId) = .ok s') {lost : ℕ → Prop} :
    Keeps s s' lost := by
  have hlook := h.faithful.look pageId
  have hlooked : Sound { s with manager := s.manager.look pageId } := h.setManager hlook.faithful le_rfl
  simp only [step] at hstep
  split at hstep
  · cases hstep
  · split at hstep
    · rename_i page hget
      cases hstep
      obtain rfl := s.manager.wellFormed.get_eq s.manager.points hget
      exact (hlooked.answer (Or.inl rfl)).of_stepped hlook
    · cases hstep
      refine (hlooked.setPending ?_).of_stepped hlook
      rintro _ ⟨⟩
      exact Nat.le_refl s.manager.numPages

theorem Sound.markDirty (h : s.Sound) (hstep : step s (.markDirty thread pageId) = .ok s') {lost : ℕ → Prop} :
    Keeps s s' lost := by
  have hlook := h.faithful.look pageId
  have hlooked : Sound { s with manager := s.manager.look pageId } := h.setManager hlook.faithful le_rfl
  simp only [step] at hstep
  split at hstep
  · cases hstep
  · split at hstep
    · rename_i page hget
      cases hstep
      obtain ⟨n, hn, hid, hpage⟩ := s.manager.wellFormed.exists_of_get hget
      have hlt : pageId < s.manager.numPages := hid ▸ h.faithful.allocated n hn (by simp [hpage])
      refine (hlooked.setPending ?_).of_stepped hlook
      rintro _ ⟨⟩
      exact hlt
    · cases hstep
      exact hlooked.of_stepped hlook

theorem Sound.proceed (h : s.Sound) (hstep : step s (.proceed thread) = .ok s') :
    Keeps s s' (Overwrites s (.proceed thread)) := by
  simp only [step] at hstep
  split at hstep
  · cases hstep
  · rename_i known pageId hcall
    cases hstep
    have hknown : known ≤ s.manager.numPages := h.pending thread _ hcall
    refine (h.setPending ?_).of_stepped (.refl h.faithful)
    rintro _ ⟨⟩
    by_cases hlt : pageId < s.manager.numPages
    · rw [SoundCall, Pager.getPage_of_lt hlt]
      exact ⟨by simp, fun _ => hlt⟩
    · have hge : pageId ≥ s.manager.pager.numPages := Nat.le_of_not_lt hlt
      rw [SoundCall, Pager.getPage, if_pos hge]
      exact ⟨fun _ => Nat.le_trans hknown hge, by simp⟩
  · rename_i known pageId page hpoints hcall
    cases hstep
    obtain ⟨hnone, halloc⟩ : SoundCall _ (.fetched known pageId page hpoints) := h.pending thread _ hcall
    have hput : (s.manager.put pageId page false hpoints).Faithful := h.faithful.put hpoints halloc (by simp)
    have hanswer : SoundAnswer ⟨known, pageId, page⟩ := by
      cases page with
      | none => exact Or.inr ⟨rfl, hnone rfl⟩
      | some p =>
        obtain rfl := hpoints p rfl
        exact Or.inl rfl
    obtain ⟨new, hnew, hdirty⟩ := s.manager.put_writesBack false hpoints
    refine ⟨((h.setManager hput (by simp)).answer hanswer).setPending (by simp), new, hnew, fun id hd hkeep => ?_⟩
    refine hdirty id ?_ hd
    rintro rfl
    exact hkeep ⟨thread, known, page, hpoints, rfl, hcall, hd⟩
  · rename_i pageId page hpoints hcall
    cases hstep
    have halloc : pageId < s.manager.numPages := h.pending thread _ hcall
    have hpoints' : ∀ p ∈ some page, p = pageOffset pageId := by simpa using hpoints
    have hput : (s.manager.put pageId (some page) true hpoints').Faithful :=
      h.faithful.put hpoints' (fun _ => halloc) (by simp)
    obtain ⟨new, hnew, hdirty⟩ := s.manager.put_writesBack true hpoints'
    refine ⟨(h.setManager hput (by simp)).setPending (by simp), new, hnew, fun id hd _ => ?_⟩
    by_cases heq : id = pageId
    · subst heq
      exact Or.inl ((CacheManager.dirty_put hpoints').mpr rfl)
    · exact hdirty id heq hd

/-- Every step answers rightly and loses no mark, unless it overwrites one. -/
theorem Sound.step (h : s.Sound) (hcount : Counted s a) (hstep : step s a = .ok s') :
    Keeps s s' (Overwrites s a) := by
  cases a with
  | getPage thread pageId => exact h.getPage hstep
  | markDirty thread pageId => exact h.markDirty hstep
  | proceed thread => exact h.proceed hstep
  | allocatePage =>
    cases hstep
    have hnum := CacheManager.allocatePage_numPages (hcount rfl)
    exact (h.setManager (h.faithful.allocatePage (hcount rfl)).faithful (by omega)).of_stepped
      (h.faithful.allocatePage (hcount rfl))
  | flush =>
    cases hstep
    exact (h.setManager h.faithful.flush.faithful (le_of_eq s.manager.flush_numPages.symm)).of_stepped h.faithful.flush

/-- A mark that is overwritten is lost without a flush. -/
theorem Overwrites.lost (h : Overwrites s a pageId) (hstep : SharedCache.step s a = .ok s') :
    ¬ s'.manager.Dirty pageId ∧ ¬ CacheManager.FlushedSince s.manager s'.manager pageId := by
  obtain ⟨thread, known, page, hpoints, rfl, hcall, hd⟩ := h
  simp only [SharedCache.step, hcall] at hstep
  cases hstep
  constructor
  · intro hd'
    cases (CacheManager.dirty_put hpoints).mp hd'
  · rintro ⟨new, hnew, hmem⟩
    have hsame : s.manager.pager.flushed = new ++ s.manager.pager.flushed := by
      rw [← hnew]
      exact congrArg Pager.flushed (CacheManager.put_pager hpoints hd).symm
    obtain rfl := List.self_eq_append_left.mp hsame
    cases hmem

/-! ## Calls that nobody interrupts -/

@[simp] theorem setPending_pending (s : SharedCache) (thread : ℕ) (call : Option PendingCall) :
    (s.setPending thread call).pending thread = call := Function.update_self ..

theorem setPending_setPending (call call' : Option PendingCall) :
    (s.setPending thread call).setPending thread call' = s.setPending thread call' := by
  simp only [setPending, Function.update_idem]

theorem update_pending_none (h : s.pending thread = none) : Function.update s.pending thread none = s.pending := by
  rw [← h, Function.update_eq_self]

theorem proceed_of_missed {known : ℕ} (h : s.pending thread = some (.missed known pageId)) :
    SharedCache.step s (.proceed thread) = .ok (s.setPending thread
      (some (.fetched known pageId (s.manager.pager.getPage pageId) (by simp [Pager.getPage])))) := by
  simp only [SharedCache.step, h]

theorem proceed_of_fetched {known : ℕ} {page : Option ℕ} {hpage : ∀ p ∈ page, p = pageOffset pageId}
    (h : s.pending thread = some (.fetched known pageId page hpage)) :
    SharedCache.step s (.proceed thread) = .ok
      (({ s with manager := s.manager.put pageId page false hpage }.answer known pageId page).setPending thread
        none) := by
  simp only [SharedCache.step, h]

theorem proceed_of_found {page : ℕ} {hpage : page = pageOffset pageId}
    (h : s.pending thread = some (.found pageId page hpage)) :
    SharedCache.step s (.proceed thread) = .ok ({ s with
      manager := s.manager.put pageId (some page) true (by simpa using hpage) }.setPending thread none) := by
  simp only [SharedCache.step, h]

/-- A call of `get_page` that no other thread interrupts is one of the manager. -/
theorem run_getPage (h : s.pending thread = none) : ∃ n,
    run SharedCache.step s (.getPage thread pageId :: List.replicate n (.proceed thread)) =
      .ok ({ s with manager := (s.manager.getPage pageId).2 }.answer s.manager.numPages pageId
        (s.manager.getPage pageId).1) := by
  cases hget : (s.manager.cache.get pageId).1 with
  | some p =>
    refine ⟨0, ?_⟩
    rw [CacheManager.getPage_of_some hget]
    simp [run, SharedCache.step, h, hget]
  | none =>
    have hlook : SharedCache.step s (.getPage thread pageId) = .ok
        ({ s with manager := s.manager.look pageId }.setPending thread
          (some (.missed s.manager.numPages pageId))) := by
      simp [SharedCache.step, h, hget]
    refine ⟨2, ?_⟩
    rw [CacheManager.getPage_of_none hget, List.replicate, List.replicate, List.replicate, run_cons_of_ok _ hlook,
      run_cons_of_ok _ (proceed_of_missed (setPending_pending ..)), setPending_setPending,
      run_cons_of_ok _ (proceed_of_fetched (setPending_pending ..)), run_nil]
    simp only [setPending, answer, Function.update_idem, update_pending_none h]
    rfl

/-- And so is one of `mark_dirty`. -/
theorem run_markDirty (h : s.pending thread = none) : ∃ n,
    run SharedCache.step s (.markDirty thread pageId :: List.replicate n (.proceed thread)) =
      .ok { s with manager := s.manager.markDirty pageId } := by
  cases hget : (s.manager.cache.get pageId).1 with
  | some p =>
    have hlook : SharedCache.step s (.markDirty thread pageId) = .ok
        ({ s with manager := s.manager.look pageId }.setPending thread
          (some (.found pageId p (s.manager.wellFormed.get_eq s.manager.points hget)))) := by
      simp only [SharedCache.step, h, Option.isSome_none, Bool.false_eq_true, if_false]
      split
      · rename_i p' hp'
        obtain rfl := Option.some.inj (hget.symm.trans hp')
        rfl
      · rename_i hnone
        rw [hget] at hnone
        cases hnone
    refine ⟨1, ?_⟩
    rw [CacheManager.markDirty_of_some hget, List.replicate, List.replicate, run_cons_of_ok _ hlook,
      run_cons_of_ok _ (proceed_of_found (setPending_pending ..)), run_nil]
    simp only [setPending, Function.update_idem, update_pending_none h]
  | none =>
    have hlook : SharedCache.step s (.markDirty thread pageId) = .ok { s with manager := s.manager.look pageId } := by
      simp only [SharedCache.step, h, Option.isSome_none, Bool.false_eq_true, if_false]
      split
      · rename_i p hp
        rw [hget] at hp
        cases hp
      · rfl
    exact ⟨0, by rw [CacheManager.markDirty_of_none hget, List.replicate, run_singleton, hlook]⟩

/-! ## Runs -/

theorem Keeps.trans {s'' : SharedCache} {lost lost' : ℕ → Prop} (h : Keeps s s' lost) (h' : Keeps s' s'' lost') :
    Keeps s s'' fun pageId => lost pageId ∨ lost' pageId := by
  obtain ⟨new, hnew, hdirty⟩ := h.writesBack
  obtain ⟨new', hnew', hdirty'⟩ := h'.writesBack
  refine ⟨h'.sound, new' ++ new, by rw [hnew', hnew, List.append_assoc], fun pageId hd hkeep => ?_⟩
  rw [not_or] at hkeep
  rcases hdirty pageId hd hkeep.1 with hd | hmem
  · exact (hdirty' pageId hd hkeep.2).imp_right (List.mem_append_left _)
  · exact Or.inr (List.mem_append_right _ hmem)

/-- A run answers rightly, and loses the marks that it overwrites at most. -/
theorem Sound.run {acts : List Action} (h : s.Sound) (hcount : Guarded SharedCache.step Counted s acts)
    (hrun : Runs.run SharedCache.step s acts = .ok s') :
    Keeps s s' fun pageId => ¬ Guarded SharedCache.step (fun u a => ¬ Overwrites u a pageId) s acts := by
  induction acts generalizing s with
  | nil =>
    cases hrun
    exact ⟨h, [], rfl, fun pageId hd _ => Or.inl hd⟩
  | cons a acts ih =>
    obtain ⟨u, hu, hrest⟩ := run_cons_eq_ok hrun
    have hkeeps := h.step hcount.1 hu
    obtain ⟨hsound, hwrites⟩ := hkeeps.trans (ih hkeeps.sound (hcount.2 u hu) hrest)
    obtain ⟨new, hnew, hdirty⟩ := hwrites
    refine ⟨hsound, new, hnew, fun pageId hd hkeep => hdirty pageId hd ?_⟩
    rw [not_not] at hkeep
    rw [not_or, not_not]
    exact ⟨hkeep.1, hkeep.2 u hu⟩

/-- One thread misses a page, and another one marks it before the first has put it. -/
def latePut : List Action :=
  [.allocatePage, .getPage 0 0, .proceed 0, .getPage 1 0, .proceed 1, .proceed 1, .markDirty 1 0, .proceed 1]

end SharedCache

end FlexQL
