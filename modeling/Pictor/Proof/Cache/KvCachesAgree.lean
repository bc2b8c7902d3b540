import Pictor.Proof.Cache.KvCacheBlocks

namespace Pictor.KvStore
open Slice Tiling RowMajor List

variable {Element : Type} {numLayers numKvHeads headDim maxSeqLen pageSize : Nat}

def KvPage.array (kind : Kind) (page : KvPage Element) : List Element :=
  match kind with
  | .key => page.keys
  | .value => page.values

/-- The vectors that were stored since the last clear. -/
abbrev Recent (Element : Type) (numLayers numKvHeads maxSeqLen : Nat) :=
  Kind → Place numLayers numKvHeads maxSeqLen → Option (List Element)

/-- The last vector of a place replaces the earlier ones. -/
def Recent.store (recent : Recent Element numLayers numKvHeads maxSeqLen) (kind : Kind) (layer head pos : Nat)
    (vector : List Element) : Recent Element numLayers numKvHeads maxSeqLen := fun kind' place =>
  if kind' = kind ∧ place.layer = layer ∧ place.head = head ∧ place.pos = pos then some vector
  else recent kind' place

def Recent.step (recent : Recent Element numLayers numKvHeads maxSeqLen) :
    Call Element → Recent Element numLayers numKvHeads maxSeqLen
  | .storeKey layer head pos key => recent.store .key layer head pos key
  | .storeValue layer head pos value => recent.store .value layer head pos value
  | .advance => recent
  | .clear => fun _ _ => none

/-- The vectors that a list of calls has stored since its last clear. -/
def recentOf (calls : List (Call Element)) : Recent Element numLayers numKvHeads maxSeqLen :=
  calls.foldl Recent.step fun _ _ => none

/-- A call is in range if its place exists and its vector has the dimension of a head. -/
def Call.InRange (numLayers numKvHeads headDim maxSeqLen : Nat) : Call Element → Prop
  | .storeKey layer head pos vector | .storeValue layer head pos vector =>
      layer < numLayers ∧ head < numKvHeads ∧ pos < maxSeqLen ∧ vector.length = headDim
  | .advance | .clear => True

instance : ∀ call : Call Element, Decidable (call.InRange numLayers numKvHeads headDim maxSeqLen)
  | .storeKey layer head pos vector | .storeValue layer head pos vector => inferInstanceAs (Decidable
      (layer < numLayers ∧ head < numKvHeads ∧ pos < maxSeqLen ∧ vector.length = headDim))
  | .advance | .clear => isTrue True.intro

def Call.storing (kind : Kind) (layer head pos : Nat) (vector : List Element) : Call Element :=
  match kind with
  | .key => .storeKey layer head pos vector
  | .value => .storeValue layer head pos vector

/-- A call in range stores a vector at a place, or advances, or clears. -/
theorem Call.inRange_cases {call : Call Element} (inRange : call.InRange numLayers numKvHeads headDim maxSeqLen) :
    (∃ kind, ∃ place : Place numLayers numKvHeads maxSeqLen, ∃ vector, vector.length = headDim ∧
      call = .storing kind place.layer place.head place.pos vector) ∨ call = .advance ∨ call = .clear := by
  cases call with
  | storeKey layer head pos vector =>
      obtain ⟨layerBelow, headBelow, posBelow, sized⟩ := inRange
      exact Or.inl ⟨.key, ⟨⟨layer, layerBelow⟩, ⟨head, headBelow⟩, ⟨pos, posBelow⟩⟩, vector, sized, rfl⟩
  | storeValue layer head pos vector =>
      obtain ⟨layerBelow, headBelow, posBelow, sized⟩ := inRange
      exact Or.inl ⟨.value, ⟨⟨layer, layerBelow⟩, ⟨head, headBelow⟩, ⟨pos, posBelow⟩⟩, vector, sized, rfl⟩
  | advance => exact Or.inr (Or.inl rfl)
  | clear => exact Or.inr (Or.inr rfl)

theorem Recent.step_storing (recent : Recent Element numLayers numKvHeads maxSeqLen) (kind : Kind)
    (place : Place numLayers numKvHeads maxSeqLen) (vector : List Element) (kind' : Kind)
    (other : Place numLayers numKvHeads maxSeqLen) :
    recent.step (.storing kind place.layer place.head place.pos vector) kind' other =
      if kind' = kind ∧ other = place then some vector else recent kind' other := by
  have same : (kind' = kind ∧ other.layer.val = place.layer ∧ other.head.val = place.head ∧
      other.pos.val = place.pos) ↔ kind' = kind ∧ other = place := by
    rw [Place.ext_iff, Fin.ext_iff, Fin.ext_iff, Fin.ext_iff]
  cases kind with
  | key => exact if_congr same rfl rfl
  | value => exact if_congr same rfl rfl

section Contiguous

/-- The contiguous cache has the recent vectors. -/
structure KvCache.Represents (headDim : Nat) (cache : KvCache Element)
    (recent : Recent Element numLayers numKvHeads maxSeqLen) : Prop where
  shaped : cache.Shaped numLayers numKvHeads headDim maxSeqLen
  rows : ∀ kind place vector, recent kind place = some vector →
    KvCache.rowAt headDim (cache.array kind) place = vector

theorem KvCache.Shaped.array {cache : KvCache Element} (shaped : cache.Shaped numLayers numKvHeads headDim maxSeqLen)
    (kind : Kind) : (cache.array kind).length = numLayers * numKvHeads * maxSeqLen * headDim := by
  cases kind with
  | key => exact shaped.keys
  | value => exact shaped.values

theorem KvCache.Represents.step {cache : KvCache Element} {recent : Recent Element numLayers numKvHeads maxSeqLen}
    (represents : cache.Represents headDim recent) {call : Call Element}
    (inRange : call.InRange numLayers numKvHeads headDim maxSeqLen) :
    ∃ next, cache.step call = .ok next ∧ next.Represents headDim (recent.step call) := by
  obtain ⟨shaped, rows⟩ := represents
  rcases Call.inRange_cases inRange with ⟨kind, place, vector, sized, rfl⟩ | rfl | rfl
  · obtain ⟨stored, ran, full, changed⟩ := shaped.store (shaped.array kind) place sized
    have kept (next : KvCache Element) (same : ∀ kind' ≠ kind, next.array kind' = cache.array kind')
        (new : next.array kind = stored) (kind' : Kind) (other : Place numLayers numKvHeads maxSeqLen)
        (vector' : List Element)
        (found : recent.step (.storing kind place.layer place.head place.pos vector) kind' other = some vector') :
        KvCache.rowAt headDim (next.array kind') other = vector' := by
      rw [Recent.step_storing] at found
      by_cases here : kind' = kind
      · rw [here, new, changed]
        by_cases there : other = place
        · rw [if_pos ⟨here, there⟩, Option.some.injEq] at found
          rw [if_pos there, found]
        · rw [if_neg fun both => there both.2, here] at found
          rw [if_neg there, rows kind other vector' found]
      · rw [if_neg fun both => here both.1] at found
        rw [same kind' here, rows kind' other vector' found]
    cases kind with
    | key =>
        refine ⟨{ cache with keys := stored }, ?_, shaped.withKeys full, kept _ ?_ rfl⟩
        · change (cache.store _ _ _ vector cache.keys >>= _) = _
          rw [show cache.keys = cache.array .key from rfl, ran]
          rfl
        · intro kind' other
          cases kind' with
          | key => exact absurd rfl other
          | value => rfl
    | value =>
        refine ⟨{ cache with values := stored }, ?_, shaped.withValues full, kept _ ?_ rfl⟩
        · change (cache.store _ _ _ vector cache.values >>= _) = _
          rw [show cache.values = cache.array .value from rfl, ran]
          rfl
        · intro kind' other
          cases kind' with
          | key => rfl
          | value => exact absurd rfl other
  · exact ⟨cache.advance, rfl, { shaped with }, fun kind place vector found => by
      cases kind <;> exact rows _ place vector found⟩
  · exact ⟨cache.clear, rfl, { shaped with }, fun _ _ _ found => by cases found⟩

end Contiguous

section Paged

/-- The pages of a layer and a head. -/
def PagedKvCache.headPages (cache : PagedKvCache Element) (layer head : Nat) : List (KvPage Element) :=
  ((cache.pages.getD layer []).getD head [])

/-- Each layer and head has a list of pages of one size. -/
structure PagedKvCache.Shaped (numLayers numKvHeads headDim pageSize : Nat) (cache : PagedKvCache Element) : Prop where
  layers : cache.pages.length = numLayers
  heads : ∀ layerPages ∈ cache.pages, layerPages.length = numKvHeads
  dim : cache.headDim = headDim
  size : cache.pageSize = pageSize
  pages : ∀ layer head, ∀ page ∈ cache.headPages layer head, ∀ kind, (page.array kind).length = pageSize * headDim

/-- The vector at a place, if its page is allocated. -/
def PagedKvCache.rowAt (headDim pageSize : Nat) (cache : PagedKvCache Element) (kind : Kind)
    (place : Place numLayers numKvHeads maxSeqLen) : Option (List Element) :=
  (cache.headPages place.layer place.head)[place.pos / pageSize]?.map fun page =>
    slice (page.array kind) (place.pos % pageSize * headDim) headDim

/-- The paged cache has the recent vectors. -/
structure PagedKvCache.Represents (headDim pageSize : Nat) (cache : PagedKvCache Element)
    (recent : Recent Element numLayers numKvHeads maxSeqLen) : Prop where
  shaped : cache.Shaped numLayers numKvHeads headDim pageSize
  rows : ∀ kind place vector, recent kind place = some vector →
    cache.rowAt headDim pageSize kind place = some vector

theorem ensurePage_eq [Zero Element] (pageIdx : Nat) (headPages : List (KvPage Element)) :
    PagedKvCache.ensurePage pageSize headDim pageIdx headPages =
      headPages ++ List.replicate (pageIdx + 1 - headPages.length) (KvPage.new pageSize headDim) := by
  fun_induction PagedKvCache.ensurePage pageSize headDim pageIdx headPages with
  | case1 headPages short ih =>
      have count : pageIdx + 1 - headPages.length = pageIdx + 1 - (headPages.length + 1) + 1 := by omega
      rw [ih, length_append, length_singleton, count, replicate_succ, append_assoc,
        singleton_append]
  | case2 headPages long =>
      have none : pageIdx + 1 - headPages.length = 0 := by omega
      rw [none, replicate_zero, append_nil]

variable [Zero Element] {cache : PagedKvCache Element}

omit [Zero Element] in
theorem PagedKvCache.Shaped.found (shaped : cache.Shaped numLayers numKvHeads headDim pageSize)
    (place : Place numLayers numKvHeads maxSeqLen) :
    ∃ layerPages, getAt Panic.outOfRange place.layer cache.pages = .ok layerPages ∧
      getAt Panic.outOfRange place.head layerPages = .ok (cache.headPages place.layer place.head) ∧
      layerPages.length = numKvHeads ∧ cache.pages[place.layer.val]? = some layerPages := by
  have inside : place.layer < cache.pages.length := by
    rw [shaped.layers]
    exact place.layer.isLt
  have width := shaped.heads _ (getElem_mem inside)
  have inside' : place.head < (cache.pages[place.layer.val]).length := by
    rw [width]
    exact place.head.isLt
  refine ⟨cache.pages[place.layer.val], getAt_inside inside, ?_, width, getElem?_eq_getElem inside⟩
  rw [getAt_inside inside', headPages, getD_eq_getElem?_getD, getD_eq_getElem?_getD,
    getElem?_eq_getElem inside, Option.getD_some, getElem?_eq_getElem inside', Option.getD_some]

/-- A page after a vector is written. -/
def KvPage.write (kind : Kind) (headDim : Nat) (vector : List Element) (start : Nat) (page : KvPage Element) :
    Except Panic (KvPage Element) :=
  match kind with
  | .key => do
      let keys ← onPart .outOfRange start (start + headDim) (copyOver .lengthMismatch vector) page.keys
      return { page with keys }
  | .value => do
      let values ← onPart .outOfRange start (start + headDim) (copyOver .lengthMismatch vector) page.values
      return { page with values }

theorem PagedKvCache.step_storing (kind : Kind) (layer head pos : Nat) (vector : List Element) :
    cache.step (.storing kind layer head pos vector) = cache.store layer head pos (KvPage.write kind cache.headDim vector) := by
  cases kind with
  | key => rfl
  | value => rfl

omit [Zero Element] in
theorem KvPage.write_ok {kind : Kind} {vector : List Element} {start : Nat} {page : KvPage Element}
    (sized : vector.length = headDim) (inside : start + headDim ≤ (page.array kind).length) :
    ∃ written, page.write kind headDim vector start = .ok written ∧ ∀ kind', written.array kind' =
      if kind' = kind then copyFromSlice (page.array kind) start vector else page.array kind' := by
  have copied := @onPart_copyOver Panic Element .outOfRange .lengthMismatch start (start + headDim) vector
    (page.array kind) (by rw [sized]) inside
  cases kind with
  | key =>
      refine ⟨{ page with keys := copyFromSlice page.keys start vector }, ?_, fun kind' => ?_⟩
      · rw [KvPage.write, show page.keys = page.array .key from rfl, copied]
        rfl
      · cases kind' with
        | key => rfl
        | value => rfl
  | value =>
      refine ⟨{ page with values := copyFromSlice page.values start vector }, ?_, fun kind' => ?_⟩
      · rw [KvPage.write, show page.values = page.array .value from rfl, copied]
        rfl
      · cases kind' with
        | key => rfl
        | value => rfl

omit [Zero Element] in
/-- The pages of one layer and head are replaced. -/
theorem PagedKvCache.headPages_set {layerPages : List (List (KvPage Element))} {layer head : Nat}
    (found : cache.pages[layer]? = some layerPages) (inside : head < layerPages.length)
    (replaced : List (KvPage Element)) (layer' head' : Nat) :
    PagedKvCache.headPages { cache with pages := cache.pages.set layer (layerPages.set head replaced) } layer' head' =
      if layer' = layer ∧ head' = head then replaced else cache.headPages layer' head' := by
  have below := (List.getElem?_eq_some_iff.mp found).1
  simp only [headPages, getD_eq_getElem?_getD, getElem?_set]
  by_cases sameLayer : layer' = layer
  · rw [sameLayer, if_pos rfl, if_pos below, Option.getD_some, getElem?_set, found, Option.getD_some]
    by_cases sameHead : head' = head
    · rw [sameHead, if_pos rfl, if_pos inside, Option.getD_some, if_pos ⟨rfl, rfl⟩]
    · rw [if_neg (Ne.symm sameHead), if_neg fun both => sameHead both.2]
  · rw [if_neg (Ne.symm sameLayer), if_neg fun both => sameLayer both.1]

/-- A store changes the vector of its place only. -/
theorem PagedKvCache.Shaped.storing (shaped : cache.Shaped numLayers numKvHeads headDim pageSize)
    (positive : 1 ≤ pageSize) (kind : Kind) (place : Place numLayers numKvHeads maxSeqLen) {vector : List Element}
    (sized : vector.length = headDim) :
    ∃ next, cache.step (.storing kind place.layer place.head place.pos vector) = .ok next ∧
      next.Shaped numLayers numKvHeads headDim pageSize ∧
      ∀ kind', ∀ other : Place numLayers numKvHeads maxSeqLen, ∀ vector',
        (if kind' = kind ∧ other = place then some vector else cache.rowAt headDim pageSize kind' other) = some vector' →
          next.rowAt headDim pageSize kind' other = some vector' := by
  obtain ⟨layerPages, layerFound, headFound, width, layerAt⟩ := shaped.found place
  have offsetBelow : place.pos % pageSize < pageSize := Nat.mod_lt _ positive
  generalize pageIdxs : place.pos.val / pageSize = pageIdx
  generalize offsets : place.pos.val % pageSize = offset at offsetBelow
  -- The pages that are there, and the ensured page.
  have ensured := @ensurePage_eq _ headDim pageSize _ pageIdx (cache.headPages place.layer place.head)
  generalize allPages : PagedKvCache.ensurePage pageSize headDim pageIdx (cache.headPages place.layer place.head) = pages
    at ensured
  have enough : pageIdx < pages.length := by
    rw [ensured, length_append, length_replicate]
    omega
  have sizes : ∀ page ∈ pages, ∀ kind, (page.array kind).length = pageSize * headDim := by
    intro page member kind
    rw [ensured, mem_append] at member
    rcases member with old | new
    · exact shaped.pages _ _ page old kind
    · rw [eq_of_mem_replicate new]
      cases kind with
      | key => exact length_replicate
      | value => exact length_replicate
  have kept : ∀ (idx : Nat) (page : KvPage Element), (cache.headPages place.layer place.head)[idx]? = some page →
      pages[idx]? = some page := by
    intro idx page found
    rw [ensured, getElem?_append_left (List.getElem?_eq_some_iff.mp found).1, found]
  have pageSized := sizes _ (getElem_mem enough)
  have fits : offset * headDim + headDim ≤ pageSize * headDim := by
    rw [← Nat.succ_mul]
    exact Nat.mul_le_mul_right headDim offsetBelow
  obtain ⟨written, wrote, arrays⟩ := @KvPage.write_ok _ headDim kind vector (offset * headDim) pages[pageIdx] sized
    (by rw [pageSized]; exact fits)
  have copyFits : offset * headDim + vector.length ≤ (pages[pageIdx].array kind).length := by
    rw [sized, pageSized]
    exact fits
  let final := if written.used ≤ offset then { written with used := offset + 1 } else written
  have same (kind' : Kind) : final.array kind' = written.array kind' := by
    simp only [final]
    by_cases first : written.used ≤ offset
    · rw [if_pos first]
      cases kind' <;> rfl
    · rw [if_neg first]
  have heads := headPages_set layerAt (by rw [width]; exact place.head.isLt) (pages.set pageIdx final)
  refine ⟨{ cache with pages := cache.pages.set place.layer (layerPages.set place.head (pages.set pageIdx final)) },
    ?_, ?_, ?_⟩
  · rw [PagedKvCache.step_storing, PagedKvCache.store, locate, shaped.size, if_neg (Nat.ne_of_gt positive)]
    change (getAt _ _ cache.pages >>= _) = _
    rw [layerFound]
    change (getAt _ _ layerPages >>= _) = _
    rw [headFound]
    change (getAt _ (place.pos / pageSize) (ensurePage pageSize cache.headDim (place.pos / pageSize)
      (cache.headPages place.layer place.head)) >>= _) = _
    rw [shaped.dim, pageIdxs, allPages, getAt_inside enough]
    change (KvPage.write kind headDim vector (place.pos % pageSize * headDim) _ >>= _) = _
    rw [offsets, wrote]
    rfl
  · constructor
    · rw [length_set, shaped.layers]
    · intro layerPages' member
      rcases mem_or_eq_of_mem_set member with old | rfl
      · exact shaped.heads _ old
      · rw [length_set, width]
    · exact shaped.dim
    · exact shaped.size
    · intro layer head page member kind'
      rw [heads] at member
      by_cases here : layer = place.layer ∧ head = place.head
      · rw [if_pos here] at member
        rcases mem_or_eq_of_mem_set member with old | rfl
        · exact sizes page old kind'
        · rw [same, arrays]
          by_cases this : kind' = kind
          · rw [if_pos this, length_copyFromSlice copyFits, pageSized]
          · rw [if_neg this, pageSized]
      · rw [if_neg here] at member
        exact shaped.pages _ _ page member kind'
  · intro kind' other vector' found
    rw [PagedKvCache.rowAt, heads]
    by_cases here : other.layer.val = place.layer ∧ other.head.val = place.head
    · rw [if_pos here, getElem?_set]
      by_cases this : pageIdx = other.pos / pageSize
      · rw [if_pos this, if_pos enough, Option.map_some, same, arrays]
        by_cases both : kind' = kind ∧ other = place
        · rw [if_pos both] at found
          rw [if_pos both.1, both.2, offsets, slice_copyFromSlice copyFits sized, found]
        · rw [if_neg both, PagedKvCache.rowAt, here.1, here.2, Option.map_eq_some_iff] at found
          obtain ⟨page, pageFound, row⟩ := found
          have old := kept _ page pageFound
          rw [← this, getElem?_eq_getElem enough, Option.some.injEq] at old
          rw [← row, ← old]
          by_cases kinds : kind' = kind
          · rw [if_pos kinds, slice_copyFromSlice_apart copyFits, kinds]
            rw [sized]
            apply cells_apart
            intro sameOffset
            apply both
            refine ⟨kinds, Place.ext (Fin.ext here.1) (Fin.ext here.2) (Fin.ext ?_)⟩
            rw [← Nat.div_add_mod other.pos.val pageSize, ← Nat.div_add_mod place.pos.val pageSize, pageIdxs, offsets,
              this, sameOffset]
          · rw [if_neg kinds]
      · rw [if_neg this]
        have different : ¬ (kind' = kind ∧ other = place) := by
          rintro ⟨_, rfl⟩
          exact this pageIdxs.symm
        rw [if_neg different, PagedKvCache.rowAt, here.1, here.2, Option.map_eq_some_iff] at found
        obtain ⟨page, pageFound, row⟩ := found
        rw [kept _ page pageFound, Option.map_some, row]
    · rw [if_neg here]
      have different : ¬ (kind' = kind ∧ other = place) := by
        rintro ⟨_, rfl⟩
        exact here ⟨rfl, rfl⟩
      rw [if_neg different] at found
      exact found

theorem PagedKvCache.Represents.step {recent : Recent Element numLayers numKvHeads maxSeqLen}
    (represents : cache.Represents headDim pageSize recent) (positive : 1 ≤ pageSize) {call : Call Element}
    (inRange : call.InRange numLayers numKvHeads headDim maxSeqLen) :
    ∃ next, cache.step call = .ok next ∧ next.Represents headDim pageSize (recent.step call) := by
  obtain ⟨shaped, rows⟩ := represents
  rcases Call.inRange_cases inRange with ⟨kind, place, vector, sized, rfl⟩ | rfl | rfl
  · obtain ⟨next, ran, shaped', changed⟩ := shaped.storing positive kind place sized
    refine ⟨next, ran, shaped', fun kind' other vector' found => changed kind' other vector' ?_⟩
    rw [Recent.step_storing] at found
    by_cases here : kind' = kind ∧ other = place
    · rwa [if_pos here] at found ⊢
    · rw [if_neg here] at found ⊢
      exact rows kind' other vector' found
  · exact ⟨cache.advance, rfl, ⟨{ shaped with }, rows⟩⟩
  · refine ⟨cache.clear, rfl, ⟨?_, fun _ _ _ found => by cases found⟩⟩
    have empty : ∀ layer head, cache.clear.headPages layer head = [] := by
      intro layer head
      rw [headPages, clear, getD_eq_getElem?_getD, getD_eq_getElem?_getD, getElem?_map]
      cases cache.pages[layer]? with
      | none => rfl
      | some layerPages =>
          rw [Option.map_some, Option.getD_some, getElem?_map]
          cases layerPages[head]? with
          | none => rfl
          | some _ => rfl
    constructor
    · rw [clear, length_map, shaped.layers]
    · intro layerPages member
      obtain ⟨old, oldMember, rfl⟩ := mem_map.mp member
      rw [length_map, shaped.heads old oldMember]
    · exact shaped.dim
    · exact shaped.size
    · intro layer head page member
      rw [empty] at member
      exact absurd member not_mem_nil

omit [Zero Element] in
theorem PagedKvCache.represents_new (numLayers numKvHeads headDim maxSeqLen pageSize : Nat) :
    (PagedKvCache.withPageSize numLayers numKvHeads headDim maxSeqLen pageSize : PagedKvCache Element).Represents
      headDim pageSize (fun _ (_ : Place numLayers numKvHeads maxSeqLen) => none) := by
  refine ⟨?_, fun _ _ _ found => by cases found⟩
  constructor
  · exact length_replicate
  · intro layerPages member
    rw [eq_of_mem_replicate member, length_replicate]
  · rfl
  · rfl
  · intro layer head page member
    have empty : (withPageSize numLayers numKvHeads headDim maxSeqLen pageSize : PagedKvCache Element).headPages
        layer head = [] := by
      simp only [headPages, withPageSize, getD_eq_getElem?_getD, getElem?_replicate]
      by_cases inside : layer < numLayers
      · rw [if_pos inside, Option.getD_some, getElem?_replicate]
        by_cases inside' : head < numKvHeads
        · rw [if_pos inside', Option.getD_some]
        · rw [if_neg inside', Option.getD_none]
      · rw [if_neg inside]
        rfl
    rw [empty] at member
    exact absurd member not_mem_nil

/-- A read returns the vectors of its positions one after another. -/
theorem PagedKvCache.Shaped.read (shaped : cache.Shaped numLayers numKvHeads headDim pageSize) (positive : 1 ≤ pageSize)
    (kind : Kind) (layer : Fin numLayers) (head : Fin numKvHeads) {seqLen : Nat} (short : seqLen ≤ maxSeqLen)
    {rows : Nat → List Element} (found : ∀ pos, ∀ inside : pos < seqLen, cache.rowAt headDim pageSize kind
      (⟨layer, head, ⟨pos, Nat.lt_of_lt_of_le inside short⟩⟩ : Place _ _ maxSeqLen) = some (rows pos)) :
    cache.read (KvPage.array kind) layer head seqLen = .ok ((List.range seqLen).map rows).flatten := by
  obtain ⟨layerPages, layerFound, headFound, _, _⟩ := shaped.found (⟨layer, head, ⟨0, Nat.succ_pos 0⟩⟩ : Place _ _ 1)
  rw [PagedKvCache.read, layerFound]
  change (getAt _ _ layerPages >>= _) = _
  rw [headFound]
  change ((List.range seqLen).mapM (_ : Nat → Except Panic (List Element)) >>= _) = _
  rw [@mapM_ok _ _ _ _ _ rows fun pos member => ?_]
  · rfl
  · have row := found pos (mem_range.mp member)
    rw [rowAt, Option.map_eq_some_iff] at row
    obtain ⟨page, pageFound, row⟩ := row
    have inside := (List.getElem?_eq_some_iff.mp pageFound).1
    have width := shaped.pages layer head page (mem_of_getElem? pageFound) kind
    have room := row_le (Nat.mod_lt pos positive) headDim
    have pageAt : getAt Panic.outOfRange (pos / pageSize) (cache.headPages layer head) = .ok page := by
      rw [getAt, pageFound]
    rw [locate, shaped.size, if_neg (Nat.ne_of_gt positive)]
    change (if pos / pageSize < (cache.headPages layer head).length then
      getAt Panic.outOfRange (pos / pageSize) (cache.headPages layer head) >>= fun page =>
        part Panic.outOfRange (page.array kind) (pos % pageSize * cache.headDim)
          (pos % pageSize * cache.headDim + cache.headDim) else _) = _
    rw [if_pos inside, pageAt, shaped.dim]
    change part _ (page.array kind) _ _ = _
    rw [part_inside (Nat.le_add_right _ _) (by rw [width]; exact room), Nat.add_sub_cancel_left, row]

end Paged

section Agreement

variable [Zero Element]

/-- Both caches return the recent vectors. -/
def ReturnBoth (contiguous : KvCache Element) (paged : PagedKvCache Element)
    (recent : Recent Element numLayers numKvHeads maxSeqLen) : Prop :=
  ∀ (layer : Fin numLayers) (head : Fin numKvHeads) (seqLen : Nat) (short : seqLen ≤ maxSeqLen) (rows : Nat → List Element),
    ((∀ pos, ∀ inside : pos < seqLen,
        recent .key ⟨layer, head, ⟨pos, Nat.lt_of_lt_of_le inside short⟩⟩ = some (rows pos)) →
      contiguous.keysFor layer head seqLen = .ok ((List.range seqLen).map rows).flatten ∧
        paged.keysFor layer head seqLen = .ok ((List.range seqLen).map rows).flatten) ∧
    ((∀ pos, ∀ inside : pos < seqLen,
        recent .value ⟨layer, head, ⟨pos, Nat.lt_of_lt_of_le inside short⟩⟩ = some (rows pos)) →
      contiguous.valuesFor layer head seqLen = .ok ((List.range seqLen).map rows).flatten ∧
        paged.valuesFor layer head seqLen = .ok ((List.range seqLen).map rows).flatten)

theorem represents_calls (positive : 1 ≤ pageSize) {calls : List (Call Element)}
    (inRange : ∀ call ∈ calls, call.InRange numLayers numKvHeads headDim maxSeqLen)
    {contiguous : KvCache Element} {paged : PagedKvCache Element}
    {recent : Recent Element numLayers numKvHeads maxSeqLen} (represents : contiguous.Represents headDim recent)
    (represents' : paged.Represents headDim pageSize recent) :
    ∃ contiguous' paged', calls.foldlM KvCache.step contiguous = .ok contiguous' ∧
      calls.foldlM PagedKvCache.step paged = .ok paged' ∧
      contiguous'.Represents headDim (calls.foldl Recent.step recent) ∧
      paged'.Represents headDim pageSize (calls.foldl Recent.step recent) := by
  induction calls generalizing contiguous paged recent with
  | nil => exact ⟨contiguous, paged, rfl, rfl, represents, represents'⟩
  | cons call calls ih =>
      rw [forall_mem_cons] at inRange
      obtain ⟨next, ran, first⟩ := represents.step inRange.1
      obtain ⟨next', ran', first'⟩ := represents'.step positive inRange.1
      rw [foldlM_cons, foldlM_cons, ran, ran']
      exact ih inRange.2 first first'

/-- Calls in range never panic, both caches return the recent vectors, and a block that is extracted and injected
copies its positions and changes nothing else. -/
theorem caches_agree (positive : 1 ≤ pageSize) {calls : List (Call Element)}
    (inRange : ∀ call ∈ calls, call.InRange numLayers numKvHeads headDim maxSeqLen) {source target : KvCache Element}
    (shaped : source.Shaped numLayers numKvHeads headDim maxSeqLen)
    (shaped' : target.Shaped numLayers numKvHeads headDim maxSeqLen) (layer : Fin numLayers) (startPos blockSize : Nat) :
    (∃ contiguous paged,
      calls.foldlM KvCache.step (KvCache.new numLayers numKvHeads headDim maxSeqLen) = .ok contiguous ∧
      calls.foldlM PagedKvCache.step
        (PagedKvCache.withPageSize numLayers numKvHeads headDim maxSeqLen pageSize) = .ok paged ∧
      contiguous.Shaped numLayers numKvHeads headDim maxSeqLen ∧
      ReturnBoth contiguous paged (recentOf calls : Recent Element numLayers numKvHeads maxSeqLen)) ∧
    ∃ keys values restored, source.extractBlock layer startPos blockSize = .ok (keys, values) ∧
      target.injectBlock layer startPos blockSize keys values = .ok restored ∧
      restored.Shaped numLayers numKvHeads headDim maxSeqLen ∧ restored.seqLen = target.seqLen ∧
      ∀ kind, ∀ place : Place numLayers numKvHeads maxSeqLen, KvCache.rowAt headDim (restored.array kind) place =
        if place.layer = layer ∧ startPos ≤ place.pos ∧ place.pos < startPos + blockSize then
          KvCache.rowAt headDim (source.array kind) place
        else KvCache.rowAt headDim (target.array kind) place := by
  constructor
  · have first : (KvCache.new numLayers numKvHeads headDim maxSeqLen : KvCache Element).Represents headDim
        (fun _ (_ : Place numLayers numKvHeads maxSeqLen) => none) :=
      ⟨KvCache.shaped_new, fun _ _ _ found => by cases found⟩
    obtain ⟨contiguous, paged, ran, ran', represents, represents'⟩ := represents_calls positive inRange first
      (PagedKvCache.represents_new numLayers numKvHeads headDim maxSeqLen pageSize)
    refine ⟨contiguous, paged, ran, ran', represents.shaped, fun layer head seqLen short rows => ⟨?_, ?_⟩⟩
    · intro found
      exact ⟨represents.shaped.read represents.shaped.keys layer head short fun pos inside =>
          represents.rows .key _ _ (found pos inside),
        represents'.shaped.read positive .key layer head short fun pos inside =>
          represents'.rows .key _ _ (found pos inside)⟩
    · intro found
      exact ⟨represents.shaped.read represents.shaped.values layer head short fun pos inside =>
          represents.rows .value _ _ (found pos inside),
        represents'.shaped.read positive .value layer head short fun pos inside =>
          represents'.rows .value _ _ (found pos inside)⟩
  · obtain ⟨keys, extracted, isKeys⟩ := @KvCache.Shaped.extract _ _ _ _ _ source source.keys layer startPos blockSize _
      shaped shaped.keys
    obtain ⟨values, extracted', isValues⟩ := @KvCache.Shaped.extract _ _ _ _ _ source source.values layer startPos
      blockSize _ shaped shaped.values
    obtain ⟨restoredKeys, injected, full, rows⟩ := shaped'.inject shaped'.keys shaped.keys isKeys
    obtain ⟨restoredValues, injected', full', rows'⟩ := shaped'.inject shaped'.values shaped.values isValues
    refine ⟨keys, values, { target with keys := restoredKeys, values := restoredValues }, ?_, ?_,
      { shaped' with keys := full, values := full' }, rfl, fun kind place => ?_⟩
    · rw [KvCache.extractBlock, extracted, extracted']
      rfl
    · rw [KvCache.injectBlock, injected, injected']
      rfl
    · cases kind with
      | key => exact rows place
      | value => exact rows' place

/-- A key crosses into the second page, and the block runs past the last position. -/
theorem twoPages_agree :
    let calls : List (Call Int) := [.storeKey 0 0 0 [1, 2], .storeKey 0 0 1 [3, 4], .storeKey 0 0 2 [5, 6], .advance]
    let source : KvCache Int := { KvCache.new 1 2 2 3 with keys := List.replicate 12 7 }
    let target : KvCache Int := KvCache.new 1 2 2 3
    (∃ contiguous paged, calls.foldlM KvCache.step (KvCache.new 1 2 2 3) = .ok contiguous ∧
      calls.foldlM PagedKvCache.step (PagedKvCache.withPageSize 1 2 2 3 2) = .ok paged ∧
      contiguous.Shaped 1 2 2 3 ∧ ReturnBoth contiguous paged (recentOf calls : Recent Int 1 2 3)) ∧
    ∃ keys values restored, source.extractBlock 0 2 2 = .ok (keys, values) ∧
      target.injectBlock 0 2 2 keys values = .ok restored ∧ restored.Shaped 1 2 2 3 ∧ restored.seqLen = target.seqLen ∧
      ∀ kind, ∀ place : Place 1 2 3, KvCache.rowAt 2 (restored.array kind) place =
        if place.layer = 0 ∧ 2 ≤ place.pos.val ∧ place.pos.val < 2 + 2 then KvCache.rowAt 2 (source.array kind) place
        else KvCache.rowAt 2 (target.array kind) place := by
  intro calls source target
  have shaped : source.Shaped 1 2 2 3 := { (KvCache.shaped_new : (KvCache.new 1 2 2 3 : KvCache Int).Shaped 1 2 2 3)
    with keys := rfl }
  exact @caches_agree Int 1 2 2 3 2 _ (by decide) calls (by decide) source target shaped KvCache.shaped_new 0 2 2

end Agreement

end Pictor.KvStore
