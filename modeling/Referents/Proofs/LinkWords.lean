import Referents.Proofs.Operations

/-!
# Link words in memory

A **cell** is a place that keeps one link word: a link field of an object, the
head of a list, or the head of the pending chain.  A cell is read, written, or
written only if it holds what was expected.  Handles pass through link words
without loss, so every cell gives back what was stored in it last, and none is
touched by what happens to another.

* `lastStored` — what was stored last in a cell.
* `Access.run_ok` — one access tells what its cell holds, and changes no other
  cell.
* `Access.mapM_run_ok` — so do any accesses, by induction on them.
* `link_words_lossless` — the laws of link words, and what the cells of a cycle
  keep after any accesses.
-/

namespace Referents

variable {γ α : Type} {c c' c'' : Cycle γ} {k : RefKind} {q : Nat} {v : Option Handle}

/-! ### Cells -/

/-- A place that keeps one link word. -/
inductive Cell where
  /-- A link field of an object. -/
  | field (a : LinkAddr)
  /-- The head of the list of a kind and queue. -/
  | head (k : RefKind) (q : Nat)
  /-- The head of the pending chain. -/
  | pending
deriving DecidableEq

/-- A link field as it is stored. -/
def Slot.stored (s : Slot) : LinkField → Link
  | .referent => s.referent
  | .discovered => s.discovered
  | .next => s.next

/-- What is stored in a link field decodes to what the field holds. -/
theorem Slot.target_stored (s : Slot) (f : LinkField) : (s.stored f).target = s.get f := by
  cases f <;> rfl

namespace Cell

/-- Whether there is such a cell. -/
def In (c : Cycle γ) : Cell → Prop
  | .field a => c.world.heap.holds a.obj = true
  | .head k q => q < (c.processor.listsOf k).size
  | .pending => True

instance (c : Cycle γ) : (x : Cell) → Decidable (x.In c)
  | .field a => inferInstanceAs (Decidable (c.world.heap.holds a.obj = true))
  | .head k q => inferInstanceAs (Decidable (q < (c.processor.listsOf k).size))
  | .pending => inferInstanceAs (Decidable True)

/-- What a cell holds as it is stored; null where there is no such cell. -/
def stored (c : Cycle γ) : Cell → Link
  | .field a => ((c.world.heap.slot? a.obj).map fun s => s.stored a.field).getD .null
  | .head k q => ((c.processor.listsOf k)[q]?.map DiscoveredList.headLink).getD .null
  | .pending => c.world.heap.pending

/-- What a cell holds; nothing where there is no such cell. -/
def content (c : Cycle γ) : Cell → Option Handle
  | .field a => c.world.heap.link a
  | .head k q => (c.processor.listsOf k)[q]?.bind DiscoveredList.head
  | .pending => c.world.heap.pendingHead

/-- What is stored in a cell decodes to its content. -/
theorem target_stored (x : Cell) : (x.stored c).target = x.content c := by
  cases x with
  | field a =>
      cases hs : c.world.heap.slot? a.obj with
      | none => simp [stored, content, Heap.link, hs]
      | some s => simp [stored, content, Heap.link, hs, Slot.target_stored]
  | head k q =>
      cases hl : (c.processor.listsOf k)[q]? with
      | none => simp [stored, content, hl]
      | some l => simp [stored, content, hl, DiscoveredList.head]
  | pending => rfl

/-- What a cell holds determines what is stored there. -/
theorem stored_eq (x : Cell) : x.stored c = .of (x.content c) := by
  rw [← x.target_stored, Link.of_target]

/-- The head of a list is the content of its cell. -/
theorem content_head {l : DiscoveredList} (hl : (c.processor.listsOf k)[q]? = some l) :
    (head k q).content c = l.head := by
  simp only [content, hl, Option.bind_some]

/-- Reads a cell. -/
def load : Cell → Step γ (Option Handle)
  | .field a => Step.onWorld (Act.read fun h => h.load a)
  | .head k q => do
      let p ← Step.processor
      let l ← Step.ofExcept (p.list k q)
      return l.head
  | .pending => Step.onWorld (Act.read fun h => .ok h.pendingHead)

/-- Loading a cell returns its content and changes nothing. -/
theorem load_ok {x : Cell} (hx : x.In c) : x.load c = .ok (x.content c) c := by
  cases x with
  | field a => exact Step.onWorld_ok (Act.read_ok (Heap.load_ok hx))
  | head k q =>
      obtain ⟨l, hget, hlist⟩ := Processor.exists_list hx
      rw [content_head hget]
      exact (bind_ok (Step.processor_ok c)).trans ((bind_ok (Step.ofExcept_ok hlist)).trans rfl)
  | pending => rfl

end Cell

/-- Changes a list, and returns what the change tells. -/
def Step.transformList (k : RefKind) (q : Nat) (f : DiscoveredList → α × DiscoveredList) :
    Step γ α := do
  let p ← processor
  let (a, l) := f (← ofExcept (p.list k q))
  setProcessor (p.setList k q l)
  return a

/-- A change of a list that there is is made and told. -/
theorem Step.transformList_ok {f : DiscoveredList → α × DiscoveredList} {l : DiscoveredList}
    (hl : c.processor.list k q = .ok l) :
    transformList k q f c =
      .ok (f l).1 { c with processor := c.processor.setList k q (f l).2 } := by
  unfold transformList
  rw [bind_ok (processor_ok c), bind_ok (ofExcept_ok hl)]
  rfl

/-! ### Accesses -/

/-- What is done to a cell. -/
inductive Access where
  | load (x : Cell)
  | store (a : LinkAddr) (v : Option Handle)
  /-- Links `o` to `p` if it is on no list or chain. -/
  | claim (o p : Handle)
  | setHead (k : RefKind) (q : Nat) (v : Option Handle)
  /-- Makes `o` the head of a list if the head still is `expected`. -/
  | swapHead (k : RefKind) (q : Nat) (expected : Option Handle) (o : Handle)
  | swapPending (v : Option Handle)
deriving DecidableEq

/-- What an access tells. -/
inductive Reply where
  | done
  /-- What the cell held. -/
  | found (v : Option Handle)
  /-- Whether the cell held what was expected. -/
  | decided (asExpected : Bool)
deriving DecidableEq

namespace Access

/-- Does it. -/
def run : Access → Step γ Reply
  | .load x => .found <$> x.load
  | .store a v => do
      Step.onWorld (Act.update fun h => h.store a v)
      return .done
  | .claim o p => .decided <$> Step.onWorld (Act.transform fun h => h.setDiscoveredIfNull o p)
  | .setHead k q v => do
      Step.transformList k q fun l => ((), l.setHead v)
      return .done
  | .swapHead k q expected o =>
      .decided <$> Step.transformList k q fun l => l.swapHead expected o
  | .swapPending v => .found <$> Step.onWorld (Act.transform fun h => .ok (h.swapPending v))

/-- The cell that is read or written. -/
def cell : Access → Cell
  | .load x => x
  | .store a _ => .field a
  | .claim o _ => .field ⟨o, .discovered⟩
  | .setHead k q _ | .swapHead k q _ _ => .head k q
  | .swapPending _ => .pending

/-- What an access tells of a cell that holds `held`. -/
def reply (held : Option Handle) : Access → Reply
  | .load _ | .swapPending _ => .found held
  | .store .. | .setHead .. => .done
  | .claim _ _ => .decided (held = none)
  | .swapHead _ _ expected _ => .decided (held = expected)

/-- What an access stores in a cell that holds `held`, if it stores anything. -/
def stores (held : Option Handle) : Access → Option (Option Handle)
  | .load _ => none
  | .store _ v | .setHead _ _ v | .swapPending v => some v
  | .claim _ p => if held = none then some (some p) else none
  | .swapHead _ _ expected o => if held = expected then some (some o) else none

/-- What a cell that held `held` holds afterwards. -/
def leaves (held : Option Handle) (a : Access) : Option Handle := (a.stores held).getD held

end Access

/-! ### What was stored last -/

/-- Cells with what was stored in them, the latest store first. -/
abbrev Stores := List (Cell × Option Handle)

/-- What was stored last in a cell, or what it held at first. -/
def lastStored (first : Cell → Option Handle) : Stores → Cell → Option Handle
  | [], x => first x
  | (y, v) :: earlier, x => if x = y then v else lastStored first earlier x

namespace Access

variable {first : Cell → Option Handle} {earlier : Stores} {x : Cell} {a : Access}
variable {as : List Access}

/-- The stores after one more access. -/
def note (first : Cell → Option Handle) (earlier : Stores) (a : Access) : Stores :=
  match a.stores (lastStored first earlier a.cell) with
  | some v => (a.cell, v) :: earlier
  | none => earlier

/-- The stores after more accesses. -/
def noteAll (first : Cell → Option Handle) (earlier : Stores) (as : List Access) : Stores :=
  as.foldl (note first) earlier

/-- The cell of an access holds afterwards what the access leaves there. -/
theorem lastStored_note_self : lastStored first (note first earlier a) a.cell =
    a.leaves (lastStored first earlier a.cell) := by
  unfold note leaves
  cases a.stores (lastStored first earlier a.cell) with
  | none => rfl
  | some v => exact if_pos rfl

/-- The other cells hold what they held. -/
theorem lastStored_note_of_ne (hx : x ≠ a.cell) :
    lastStored first (note first earlier a) x = lastStored first earlier x := by
  unfold note
  cases a.stores (lastStored first earlier a.cell) with
  | none => rfl
  | some v => exact if_neg hx

/-- A cell that no access is to holds what it held. -/
theorem lastStored_noteAll_of_ne (hx : ∀ a ∈ as, a.cell ≠ x) :
    lastStored first (noteAll first earlier as) x = lastStored first earlier x := by
  induction as generalizing earlier with
  | nil => rfl
  | cons a as ih =>
      have hrest : lastStored first (noteAll first (note first earlier a) as) x =
          lastStored first (note first earlier a) x :=
        ih fun b hb => hx b (List.mem_cons_of_mem a hb)
      exact hrest.trans (lastStored_note_of_ne (hx a List.mem_cons_self).symm)

end Access

/-! ### One access -/

/-- But for link words and the lengths of lists the cycles are the same. -/
structure Cycle.SameButLinks (c c' : Cycle γ) : Prop where
  objects : c.world.heap.SameObjects c'.world.heap
  collector : c'.world.collector = c.world.collector
  times : c'.times = c.times
  sink : c'.sink = c.sink
  processor : c'.processor = { c.processor with lists := c'.processor.lists }
  lists : ∀ k, (c'.processor.listsOf k).size = (c.processor.listsOf k).size

namespace Cycle.SameButLinks

theorem refl (c : Cycle γ) : c.SameButLinks c := ⟨⟨rfl, rfl, rfl⟩, rfl, rfl, rfl, rfl, fun _ => rfl⟩

/-- Link words are changed by several accesses, and nothing else by any. -/
theorem trans (h : c.SameButLinks c') (h' : c'.SameButLinks c'') : c.SameButLinks c'' where
  objects := h.objects.trans h'.objects
  collector := h'.collector.trans h.collector
  times := h'.times.trans h.times
  sink := h'.sink.trans h.sink
  processor := by rw [h'.processor, h.processor]
  lists k := (h'.lists k).trans (h.lists k)

/-- A heap with the same objects differs in link words only. -/
theorem of_heap {g : Heap} (hg : c.world.heap.SameObjects g) :
    c.SameButLinks { c with world := { c.world with heap := g } } := { refl c with objects := hg }

/-- A processor with another list differs in its head and length only. -/
theorem of_setList (k : RefKind) (q : Nat) (l : DiscoveredList) :
    c.SameButLinks { c with processor := c.processor.setList k q l } :=
  { refl c with
    processor := rfl
    lists := c.processor.size_listsOf_setList k q l }

/-- Accesses neither add cells nor take them away. -/
theorem cell_in (h : c.SameButLinks c') {x : Cell} (hx : x.In c) : x.In c' := by
  cases x with
  | field a => exact (Heap.holds_congr h.objects.traits a.obj).trans hx
  | head k q => exact Nat.lt_of_lt_of_eq hx (h.lists k).symm
  | pending => trivial

end Cycle.SameButLinks

namespace Cell

/-- From `c` to `c'` the cell `x` gets the content `v`, and nothing else changes. -/
structure Becomes (x : Cell) (v : Option Handle) (c c' : Cycle γ) : Prop
    extends c.SameButLinks c' where
  self : x.content c' = v
  others : ∀ y : Cell, y ≠ x → y.content c' = y.content c

namespace Becomes

/-- A cell that is left alone becomes what it was. -/
theorem refl (x : Cell) (c : Cycle γ) : x.Becomes (x.content c) c c :=
  ⟨.refl c, rfl, fun _ _ => rfl⟩

/-- A write changes one link field. -/
theorem write {a : LinkAddr} (ha : c.world.heap.holds a.obj = true) :
    (field a).Becomes v c { c with world := { c.world with heap := c.world.heap.write a v } } where
  toSameButLinks := .of_heap (Heap.sameObjects_write _ a v)
  self := Heap.link_write_self ha
  others y hy := by
    cases y with
    | field b => exact Heap.link_write_of_ne fun e => hy (congrArg Cell.field e)
    | head k q => rfl
    | pending => exact Heap.pendingHead_write

/-- A new pending head changes no other cell. -/
theorem withPending : pending.Becomes v c
    { c with world := { c.world with heap := c.world.heap.withPending v } } where
  toSameButLinks := .of_heap (Heap.sameObjects_withPending _ v)
  self := Heap.pendingHead_withPending _ v
  others y hy := by
    cases y with
    | field a => rfl
    | head k q => rfl
    | pending => exact absurd rfl hy

/-- A new list changes the head of this list, and no other cell. -/
theorem setList {l : DiscoveredList} (hq : q < (c.processor.listsOf k).size) :
    (head k q).Becomes l.head c { c with processor := c.processor.setList k q l } where
  toSameButLinks := .of_setList k q l
  self := content_head (Processor.getElem?_setList_self hq l)
  others y hy := by
    cases y with
    | field a => rfl
    | head k' q' =>
        have hne : k' = k → q' ≠ q := fun hk hq => hy (by rw [hk, hq])
        exact congrArg (·.bind DiscoveredList.head) (Processor.getElem?_setList_of_ne hne l)
    | pending => rfl

end Becomes

end Cell

namespace Access

variable {first : Cell → Option Handle} {earlier : Stores} {a : Access} {as : List Access}

/-- An access tells what its cell holds, leaves there what it stores, and changes no other
cell.  Only a swap of its own head changes the length of a list. -/
theorem run_ok (ha : a.cell.In c) : ∃ c', a.run c = .ok (a.reply (a.cell.content c)) c' ∧
    a.cell.Becomes (a.leaves (a.cell.content c)) c c' ∧
    ∀ k q, (∀ expected o, a ≠ .swapHead k q expected o) →
      (c'.processor.lengths k)[q]? = (c.processor.lengths k)[q]? := by
  cases a with
  | load x => exact ⟨c, map_ok _ (Cell.load_ok ha), .refl x c, fun _ _ _ => rfl⟩
  | store a v =>
      have hstore := Step.onWorld_ok
        (Act.update_ok (f := fun h => h.store a v) (Heap.store_ok ha))
      exact ⟨_, (bind_ok hstore).trans rfl, .write ha, fun _ _ _ => rfl⟩
  | claim o p =>
      -- a claim that comes too late leaves the heap as it is, and so fills in what is there
      have ho : c.world.heap.holds o = true := ha
      have hclaim := Step.onWorld_ok (Act.transform_ok
        (f := fun h => h.setDiscoveredIfNull o p) (Heap.setDiscoveredIfNull_ok ho p))
      refine ⟨_, map_ok _ hclaim, ?_, fun _ _ _ => rfl⟩
      show (Cell.field ⟨o, .discovered⟩).Becomes
        (Option.getD (if c.world.heap.following o = none then some (some p) else none)
          (c.world.heap.following o)) c _
      split
      · exact .write ho
      · exact .refl _ c
  | setHead k q v =>
      obtain ⟨l, hget, hlist⟩ := Processor.exists_list ha
      have hset := Step.transformList_ok (f := fun l => ((), l.setHead v)) hlist
      refine ⟨_, (bind_ok hset).trans rfl, ?_, fun _ _ _ => ?_⟩
      · have hbecomes := Cell.Becomes.setList (l := l.setHead v) ha
        rwa [DiscoveredList.head_setHead] at hbecomes
      · exact Processor.lengths_setList hget fun _ _ => rfl
  | swapHead k q expected o =>
      obtain ⟨l, hget, hlist⟩ := Processor.exists_list ha
      have hswap := Step.transformList_ok (f := fun l => l.swapHead expected o) hlist
      have hleaves : leaves l.head (.swapHead k q expected o) =
          (l.swapHead expected o).2.head := by
        rw [DiscoveredList.head_swapHead, leaves, stores]
        split <;> rfl
      refine ⟨{ c with processor := c.processor.setList k q (l.swapHead expected o).2 }, ?_, ?_,
        fun k' q' hother => ?_⟩
      · rw [cell, Cell.content_head hget, reply, ← DiscoveredList.swapHead_fst l expected o]
        exact map_ok _ hswap
      · rw [cell, Cell.content_head hget, hleaves]
        exact .setList ha
      · refine Processor.lengths_setList hget fun hk hq => ?_
        exact absurd rfl (hk ▸ hq ▸ hother expected o)
  | swapPending v =>
      have hswap := Step.onWorld_ok (Act.transform_ok (f := fun h => .ok (h.swapPending v))
        (congrArg Except.ok (c.world.heap.swapPending_eq v)))
      exact ⟨_, map_ok _ hswap, .withPending, fun _ _ _ => rfl⟩

/-! ### Any accesses -/

/-- Each of several accesses tells what was stored last in its cell by then, and in the end
every cell holds what was stored in it last. -/
theorem mapM_run_ok (hc : ∀ x : Cell, x.content c = lastStored first earlier x)
    (has : ∀ a ∈ as, a.cell.In c) :
    ∃ (replies : List Reply) (c' : Cycle γ), as.mapM run c = .ok replies c' ∧
      (∀ i, replies[i]? = as[i]?.map fun (a : Access) =>
        a.reply (lastStored first (noteAll first earlier (as.take i)) a.cell)) ∧
      (∀ x : Cell, x.content c' = lastStored first (noteAll first earlier as) x) ∧
      c.SameButLinks c' ∧
      ∀ k q, (∀ expected o, .swapHead k q expected o ∉ as) →
        (c'.processor.lengths k)[q]? = (c.processor.lengths k)[q]? := by
  -- by induction on the accesses: the stores so far explain what all cells hold
  induction as generalizing c earlier with
  | nil => exact ⟨[], c, rfl, fun _ => rfl, hc, .refl c, fun _ _ _ => rfl⟩
  | cons a as ih =>
      obtain ⟨c₁, hrun, hbecomes, hlengths⟩ := run_ok (has a List.mem_cons_self)
      have hc₁ : ∀ x : Cell, x.content c₁ = lastStored first (note first earlier a) x := by
        intro x
        by_cases hx : x = a.cell
        · rw [hx, hbecomes.self, lastStored_note_self, hc]
        · rw [hbecomes.others x hx, lastStored_note_of_ne hx, hc]
      obtain ⟨replies, c', hrest, hreplies, hcontent, hsame, hlengths'⟩ :=
        ih hc₁ fun b hb => hbecomes.cell_in (has b (List.mem_cons_of_mem a hb))
      refine ⟨a.reply (a.cell.content c) :: replies, c', ?_, fun i => ?_, hcontent,
        hbecomes.toSameButLinks.trans hsame, fun k q hother => ?_⟩
      · rw [List.mapM_cons]
        exact (bind_ok hrun).trans ((bind_ok hrest).trans rfl)
      · cases i with
        | zero =>
            rw [hc]
            rfl
        | succ i => exact hreplies i
      · rw [hlengths' k q fun expected o hb => hother expected o (List.mem_cons_of_mem a hb)]
        exact hlengths k q fun expected o ha => hother expected o (ha ▸ List.mem_cons_self)

end Access

/-- Link words lose nothing.  The slots below `2 ^ 32 - 1` and no others have handles, and the
handle of slot `i` is what the word `i + 1` stands for.  The word of a handle is neither `0`, the
word of null, nor above `2 ^ 32 - 1`; words below `2 ^ 32` are the words of what they stand for,
and larger ones stand for nothing.  To compare stored words is to compare what they stand for.

So whatever is done to the cells of a cycle, each access tells what was stored last in its
cell by then, and in the end every cell has the word of what was stored in it last.  A cell that
no access is to stays as it was, and so does everything that is no link, apart from the length
of a list whose own head is swapped. -/
theorem link_words_lossless (c : Cycle γ) (as : List Access) (has : ∀ a ∈ as, a.cell.In c) :
    (∀ i, ((Handle.ofIndex? i).isSome ↔ i < 2 ^ 32 - 1) ∧
      ∀ o, Handle.ofIndex? i = some o → o.index = i) ∧
    (∀ i : UInt64, Handle.ofIndex? i.toNat = Handle.decode (i + 1)) ∧
    (∀ o, Handle.decode (Handle.encode (some o)) = some o ∧
      Handle.encode (some o) ≠ 0 ∧ (Handle.encode (some o)).toNat ≤ 2 ^ 32 - 1) ∧
    Handle.decode 0 = none ∧ Handle.encode none = 0 ∧
    Function.Injective Handle.encode ∧
    (∀ w, w.toNat < 2 ^ 32 → Handle.encode (Handle.decode w) = w) ∧
    (∀ w, 2 ^ 32 ≤ w.toNat → Handle.decode w = none) ∧
    (∀ (l : Link) v, l.word = Handle.encode v ↔ l.target = v) ∧
    ∃ (replies : List Reply) (c' : Cycle γ), as.mapM Access.run c = .ok replies c' ∧
      (∀ i, replies[i]? = as[i]?.map fun (a : Access) =>
        a.reply (lastStored (Cell.content c) (Access.noteAll (Cell.content c) [] (as.take i))
          a.cell)) ∧
      (∀ x : Cell, (x.stored c').word =
        Handle.encode (lastStored (Cell.content c) (Access.noteAll (Cell.content c) [] as) x)) ∧
      (∀ x : Cell, (∀ a ∈ as, a.cell ≠ x) → x.stored c' = x.stored c) ∧
      c.SameButLinks c' ∧
      ∀ k q, (∀ expected o, .swapHead k q expected o ∉ as) →
        (c'.processor.lengths k)[q]? = (c.processor.lengths k)[q]? := by
  have hfirst : ∀ x : Cell, x.content c = lastStored (Cell.content c) [] x := fun _ => rfl
  obtain ⟨replies, c', hrun, hreplies, hcontent, hsame, hlengths⟩ :=
    Access.mapM_run_ok hfirst has
  refine ⟨fun i => ⟨Handle.isSome_ofIndex?, fun o => Handle.ofIndex?_eq_some_iff.mp⟩,
    Handle.ofIndex?_toNat, fun o => ⟨Handle.decode_encode _, Handle.encode_some_ne_zero o,
      Nat.le_of_lt_succ (Handle.toNat_encode_lt (some o))⟩, rfl, rfl, Handle.encode_injective,
    fun w => Handle.encode_decode, fun w => Handle.decode_of_le, fun l v => Link.word_eq_encode_iff,
    replies, c', hrun, hreplies, fun x => ?_, fun x hx => ?_, hsame, hlengths⟩
  · rw [x.stored_eq, hcontent]
    rfl
  · rw [x.stored_eq, x.stored_eq, hcontent, Access.lastStored_noteAll_of_ne hx, ← hfirst]

/-- The handle with the largest link word. -/
def Handle.last : Handle := ⟨0xFFFFFFFE, by decide⟩

/-- A reference is claimed twice and made a head, which nobody expects the second time; it
becomes pending and is taken again. -/
def pairAccesses : List Access :=
  [.claim (.low 1) (.low 1), .claim (.low 1) (.low 0), .load (.field ⟨.low 1, .discovered⟩),
    .swapHead .weak 1 none (.low 1), .swapHead .weak 1 none (.low 0), .load (.head .weak 1),
    .store ⟨.low 1, .next⟩ (some .last), .load (.field ⟨.low 1, .next⟩),
    .swapPending (some (.low 1)), .setHead .weak 1 none, .swapPending none, .load (.head .weak 1)]

/-- The second claim and the second swap are lost, and the largest link word is read back. -/
theorem link_words_lossless_of_pair :
    (∀ a ∈ pairAccesses, a.cell.In pairStart.state) ∧
    ∃ c', pairAccesses.mapM Access.run pairStart.state = .ok [.decided true, .decided false,
        .found (some (.low 1)), .decided true, .decided false, .found (some (.low 1)), .done,
        .found (some .last), .found none, .done, .found (some (.low 1)), .found none] c' ∧
      (Cell.stored c' (.field ⟨.low 1, .next⟩)).word = 0xFFFFFFFF ∧
      (Cell.stored c' (.field ⟨.low 1, .discovered⟩)).word = 2 ∧
      (Cell.stored c' (.field ⟨.low 1, .referent⟩)).word = 1 ∧
      (Cell.stored c' (.head .weak 1)).word = 0 := by
  have hcells : ∀ a ∈ pairAccesses, a.cell.In pairStart.state := by decide
  obtain ⟨-, -, -, -, -, -, -, -, -, replies, c', hrun, -, hwords, -⟩ :=
    link_words_lossless pairStart.state pairAccesses hcells
  obtain ⟨_, _, hrun', hreplies⟩ := exists_of_run (x := pairAccesses.mapM Access.run)
    (s := pairStart.state)
    (P := fun replies _ => replies = [.decided true, .decided false, .found (some (.low 1)),
      .decided true, .decided false, .found (some (.low 1)), .done, .found (some .last),
      .found none, .done, .found (some (.low 1)), .found none]) (by decide +kernel)
  rw [hrun] at hrun'
  cases hrun'
  rw [of_decide_eq_true hreplies] at hrun
  refine ⟨hcells, c', hrun, ?_, ?_, ?_, ?_⟩
  all_goals
    rw [hwords]
    decide

end Referents
