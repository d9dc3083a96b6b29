import Tarsnap.Storage.ReadLru

/-!
# The cache over whole runs

The queue of the cache holds exactly the entries that are marked so, its byte counter is the length
of their data, and what is cached of a file is what it may be. This is kept by every operation, and
each of them does to the queue and the data what it is for.
-/

namespace Tarsnap.Storage

open Tarsnap.Lib Tarsnap.Netpacket

section Parts

/-- An entry without its links. -/
structure CachedContent where
  /-- The data, if it is cached. -/
  buf : Option (List UInt8)
  /-- Length of the data. -/
  buflen : Nat
  /-- Whether the entry is in the queue. -/
  inqueue : Bool

/-- What an entry has besides its links. -/
def ReadFileCached.content (entry : ReadFileCached) : CachedContent :=
  ⟨entry.buf, entry.buflen, entry.inqueue⟩

/-- The links of the queue. -/
def StorageReadCache.links (cache : StorageReadCache) : Links ClassName where
  next classname := (cache.ht classname).bind (·.nextLru)
  prev classname := (cache.ht classname).bind (·.nextMru)
  first := cache.mru
  last := cache.lru

/-- What the entries have besides their links. -/
def StorageReadCache.contents (cache : StorageReadCache) (classname : ClassName) :
    Option CachedContent :=
  (cache.ht classname).map ReadFileCached.content

/-- Equal caches have equal links. -/
theorem links_ext {left right : Links ClassName} (next : left.next = right.next)
    (prev : left.prev = right.prev) (first : left.first = right.first)
    (last : left.last = right.last) : left = right := by
  obtain ⟨next, prev, first, last⟩ := left
  subst next prev first last
  rfl

variable {cache : StorageReadCache} {CF : ClassName} {entry : ReadFileCached}

/-- Writing to an entry changes its links and what it has besides them. -/
theorem write_spec (here : cache.ht CF = some entry)
    (change : ReadFileCached → ReadFileCached) : ∃ cache', cache.write CF change = some cache' ∧
      cache'.ht = Function.update cache.ht CF (some (change entry)) ∧
      cache'.links = ⟨Function.update cache.links.next CF (change entry).nextLru,
        Function.update cache.links.prev CF (change entry).nextMru, cache.mru, cache.lru⟩ ∧
      cache'.contents = Function.update cache.contents CF (some (change entry).content) ∧
      cache'.mru = cache.mru ∧ cache'.lru = cache.lru ∧ cache'.sz = cache.sz ∧
      cache'.maxsz = cache.maxsz ∧ cache'.held = cache.held := by
  refine ⟨{ cache with ht := Function.update cache.ht CF (some (change entry)) }, ?_, rfl, ?_, ?_,
    rfl, rfl, rfl, rfl, rfl⟩
  · rw [StorageReadCache.write, here, Option.map_some]
  · apply links_ext
    · funext other
      by_cases same : other = CF
      · simp only [StorageReadCache.links, same, Function.update_self, Option.bind_some]
      · simp only [StorageReadCache.links, Function.update_of_ne same]
    · funext other
      by_cases same : other = CF
      · simp only [StorageReadCache.links, same, Function.update_self, Option.bind_some]
      · simp only [StorageReadCache.links, Function.update_of_ne same]
    · rfl
    · rfl
  · funext other
    by_cases same : other = CF
    · simp only [StorageReadCache.contents, same, Function.update_self, Option.map_some]
    · simp only [StorageReadCache.contents, Function.update_of_ne same]

/-- Writing links leaves what an entry has besides them. -/
theorem update_contents (here : cache.ht CF = some entry) {content : CachedContent}
    (same : content = entry.content) :
    Function.update cache.contents CF (some content) = cache.contents := by
  apply Function.update_eq_self_iff.mpr
  rw [same, StorageReadCache.contents, here, Option.map_some]

/-- The links of an entry. -/
theorem links_entry (here : cache.ht CF = some entry) :
    cache.links.next CF = entry.nextLru ∧ cache.links.prev CF = entry.nextMru := by
  constructor
  · simp only [StorageReadCache.links, here, Option.bind_some]
  · simp only [StorageReadCache.links, here, Option.bind_some]

end Parts

section Queue

variable {cache : StorageReadCache} {CF : ClassName} {entry : ReadFileCached}
  {before after order : List ClassName}

/-- Writing links: nothing else of the cache changes. -/
structure Relinked (cache cache' : StorageReadCache) (links : Links ClassName) : Prop where
  /-- The links. -/
  links : cache'.links = links
  /-- Besides links nothing is changed. -/
  contents : cache'.contents = cache.contents
  /-- The byte counter stays. -/
  sz : cache'.sz = cache.sz
  /-- The limit stays. -/
  maxsz : cache'.maxsz = cache.maxsz
  /-- The memory stays. -/
  held : cache'.held = cache.held

/-- An entry that has contents. -/
theorem entry_of_contents {content : CachedContent} (here : cache.contents CF = some content) :
    ∃ entry, cache.ht CF = some entry ∧ entry.content = content :=
  Option.map_eq_some_iff.mp here

/-- The pointer of the neighbour to the less recently used entry is changed, or the first one. -/
theorem setNextLru_spec {mru : Option ClassName} (value : Option ClassName)
    (present : ∀ classname, mru = some classname → (cache.contents classname).isSome) :
    ∃ cache', cache.setNextLru mru value = some cache' ∧
      Relinked cache cache' ⟨relink cache.links.next mru value, cache.links.prev,
        if mru = none then value else cache.mru, cache.lru⟩ := by
  cases mru with
  | none => exact ⟨_, rfl, rfl, rfl, rfl, rfl, rfl⟩
  | some classname =>
    obtain ⟨content, there⟩ := Option.isSome_iff_exists.mp (present classname rfl)
    obtain ⟨other, here, _⟩ := entry_of_contents there
    obtain ⟨cache', written, _, links, contents, _, _, sz, maxsz, held⟩ :=
      write_spec here fun other => { other with nextLru := value }
    refine ⟨cache', written, ?_, ?_, sz, maxsz, held⟩
    · rw [links]
      apply links_ext
      · rfl
      · exact Function.update_eq_self_iff.mpr (links_entry here).2.symm
      · rfl
      · rfl
    · rw [contents]
      exact update_contents here rfl

/-- The pointer of the neighbour to the more recently used entry is changed, or the last one. -/
theorem setNextMru_spec {lru : Option ClassName} (value : Option ClassName)
    (present : ∀ classname, lru = some classname → (cache.contents classname).isSome) :
    ∃ cache', cache.setNextMru lru value = some cache' ∧
      Relinked cache cache' ⟨cache.links.next, relink cache.links.prev lru value, cache.mru,
        if lru = none then value else cache.lru⟩ := by
  cases lru with
  | none => exact ⟨_, rfl, rfl, rfl, rfl, rfl, rfl⟩
  | some classname =>
    obtain ⟨content, there⟩ := Option.isSome_iff_exists.mp (present classname rfl)
    obtain ⟨other, here, _⟩ := entry_of_contents there
    obtain ⟨cache', written, _, links, contents, _, _, sz, maxsz, held⟩ :=
      write_spec here fun other => { other with nextMru := value }
    refine ⟨cache', written, ?_, ?_, sz, maxsz, held⟩
    · rw [links]
      apply links_ext
      · exact Function.update_eq_self_iff.mpr (links_entry here).1.symm
      · rfl
      · rfl
      · rfl
    · rw [contents]
      exact update_contents here rfl

/-- An entry is made more recently used than another one. -/
theorem linkMru_spec {lru : Option ClassName} (CF : ClassName)
    (present : ∀ classname, lru = some classname → (cache.contents classname).isSome) :
    ∃ cache', cache.linkMru lru CF = some cache' ∧
      Relinked cache cache' ⟨cache.links.next, relink cache.links.prev lru (some CF), cache.mru,
        cache.lru⟩ := by
  cases lru with
  | none => exact ⟨_, rfl, rfl, rfl, rfl, rfl, rfl⟩
  | some classname =>
    obtain ⟨cache', written, relinked⟩ := setNextMru_spec (some CF) present
    refine ⟨cache', written, ?_, relinked.contents, relinked.sz, relinked.maxsz, relinked.held⟩
    rw [relinked.links]
    rfl

/-- What an operation on the queue leaves alone. -/
structure Requeued (cache cache' : StorageReadCache) (CF : ClassName) (content : CachedContent)
    (links : Links ClassName) (sz : Nat) : Prop where
  /-- The links. -/
  links : cache'.links = links
  /-- Besides links only the entry is changed. -/
  contents : cache'.contents = Function.update cache.contents CF (some content)
  /-- The byte counter. -/
  sz : cache'.sz = sz
  /-- The limit stays. -/
  maxsz : cache'.maxsz = cache.maxsz
  /-- The memory stays. -/
  held : cache'.held = cache.held

/-- An entry is taken out of the queue. -/
theorem cacheLruRemove_spec {content : CachedContent}
    (lists : cache.links.Lists (before ++ CF :: after))
    (present : ∀ classname ∈ before ++ CF :: after, (cache.contents classname).isSome)
    (here : cache.contents CF = some content) (queued : content.inqueue = true) :
    ∃ cache', cacheLruRemove cache CF = some cache' ∧
      Requeued cache cache' CF { content with inqueue := false } (cache.links.unlink CF)
        ((cache.sz + (sizeModulus - content.buflen)) % sizeModulus) := by
  obtain ⟨entry, there, rfl⟩ := entry_of_contents here
  obtain ⟨next, prev⟩ := lists.neighbours
  obtain ⟨next', prev'⟩ := links_entry there
  have nextLru : entry.nextLru = after.head? := next'.symm.trans next
  have nextMru : entry.nextMru = before.getLast? := prev'.symm.trans prev
  obtain ⟨nodupBefore, nodupAfter, disjoint⟩ := List.nodup_append.mp lists.nodup
  have mruApart : entry.nextMru ≠ some CF := by
    rw [nextMru]
    intro same
    exact disjoint CF (List.mem_of_getLast? same) CF List.mem_cons_self rfl
  have mruPresent : ∀ classname, entry.nextMru = some classname →
      (cache.contents classname).isSome := by
    intro classname same
    rw [nextMru] at same
    exact present classname (List.mem_append_left _ (List.mem_of_getLast? same))
  have lruPresent : ∀ classname, entry.nextLru = some classname →
      (cache.contents classname).isSome := by
    intro classname same
    rw [nextLru] at same
    exact present classname (List.mem_append_right _
      (List.mem_cons_of_mem _ (List.mem_of_head? same)))
  obtain ⟨cache1, step1, relinked1⟩ := setNextLru_spec entry.nextLru mruPresent
  obtain ⟨entry1, there1, content1⟩ := entry_of_contents
    ((congrFun relinked1.contents CF).trans here)
  have nextLru1 : entry1.nextLru = entry.nextLru := by
    rw [← (links_entry there1).1, relinked1.links]
    exact (relink_of_ne mruApart).trans next'
  have nextMru1 : entry1.nextMru = entry.nextMru := by
    rw [← (links_entry there1).2, relinked1.links]
    exact prev'
  rw [← relinked1.contents] at lruPresent
  obtain ⟨cache2, step2, relinked2⟩ := setNextMru_spec entry.nextMru lruPresent
  obtain ⟨entry2, there2, content2⟩ := entry_of_contents
    ((congrFun (relinked2.contents.trans relinked1.contents) CF).trans here)
  obtain ⟨cache3, step3, ht3, links3, contents3, mru3, lru3, sz3, maxsz3, held3⟩ :=
    write_spec there2 fun entry => { entry with inqueue := false }
  have there3 : cache3.ht CF = some { entry2 with inqueue := false } := by
    rw [ht3, Function.update_self]
  have there4 : ({ cache3 with
      sz := (cache3.sz + (sizeModulus - entry2.buflen)) % sizeModulus } : StorageReadCache).ht CF =
      some { entry2 with inqueue := false } := there3
  obtain ⟨cache4, step4, ht4, links4, contents4, mru4, lru4, sz4, maxsz4, held4⟩ :=
    write_spec there4 fun entry => { entry with nextMru := none, nextLru := none }
  refine ⟨cache4, ?_, ?_⟩
  · rw [cacheLruRemove]
    simp only [there, Option.bind_eq_bind, Option.bind_some, step1, there1, nextLru1, nextMru1,
      step2, step3, there3, step4]
    exact if_neg (fun absurdity => absurd (queued.symm.trans absurdity) (by decide))
  · have first1 : cache1.mru = _ := congrArg Links.first relinked1.links
    have last1 : cache1.lru = _ := congrArg Links.last relinked1.links
    have first2 : cache2.mru = _ := congrArg Links.first relinked2.links
    have last2 : cache2.lru = _ := congrArg Links.last relinked2.links
    refine ⟨?_, ?_, ?_, ?_, ?_⟩
    · rw [links4, Links.unlink, next', prev']
      apply links_ext
      · show Function.update cache3.links.next CF none = _
        rw [links3, relinked2.links, relinked1.links, Function.update_idem]
      · show Function.update cache3.links.prev CF none = _
        rw [links3, relinked2.links, relinked1.links, Function.update_idem]
      · show cache3.mru = _
        rw [mru3, first2, first1]
        rfl
      · show cache3.lru = _
        rw [lru3, last2, last1]
        rfl
    · rw [contents4]
      show Function.update cache3.contents CF _ = _
      rw [contents3, Function.update_idem, relinked2.contents, relinked1.contents, ← content2]
      rfl
    · rw [sz4, ← content2]
      show (cache3.sz + (sizeModulus - entry2.buflen)) % sizeModulus = _
      rw [sz3, relinked2.sz, relinked1.sz]
      rfl
    · exact maxsz4.trans (maxsz3.trans (relinked2.maxsz.trans relinked1.maxsz))
    · exact held4.trans (held3.trans (relinked2.held.trans relinked1.held))

/-- An entry is put at the front of the queue. -/
theorem cacheLruAdd_spec {content : CachedContent} (lists : cache.links.Lists order)
    (present : ∀ classname ∈ order, (cache.contents classname).isSome)
    (here : cache.contents CF = some content)
    (unqueued : content.inqueue = false) :
    ∃ cache', cacheLruAdd cache CF = some cache' ∧
      Requeued cache cache' CF { content with inqueue := true } (cache.links.pushFront CF)
        ((cache.sz + content.buflen) % sizeModulus) := by
  obtain ⟨entry, there, rfl⟩ := entry_of_contents here
  have head : cache.mru = order.head? := lists.first
  obtain ⟨cache1, step1, ht1, links1, contents1, mru1, lru1, sz1, maxsz1, held1⟩ :=
    write_spec there fun entry => { entry with nextMru := none, nextLru := cache.mru }
  have there1 : cache1.ht CF = some { entry with nextMru := none, nextLru := cache.mru } := by
    rw [ht1, Function.update_self]
  have same1 : cache1.contents = cache.contents := by
    rw [contents1]
    exact update_contents there rfl
  have mruPresent : ∀ classname, cache.mru = some classname →
      (cache1.contents classname).isSome := by
    intro classname same
    rw [head] at same
    rw [same1]
    exact present classname (List.mem_of_head? same)
  obtain ⟨cache2, step2, relinked2⟩ := linkMru_spec CF mruPresent
  have first2 : cache2.mru = cache1.mru := congrArg Links.first relinked2.links
  have last2 : cache2.lru = cache1.lru := congrArg Links.last relinked2.links
  have last3 : (if cache2.lru = none then { cache2 with lru := some CF } else cache2) =
      { cache2 with lru := if cache2.lru = none then some CF else cache2.lru } := by
    split
    · rfl
    · rfl
  obtain ⟨entry2, there2, content2⟩ := entry_of_contents
    ((congrFun (relinked2.contents.trans same1) CF).trans here)
  have there3 : ({ cache2 with
      lru := if cache2.lru = none then some CF else cache2.lru
      mru := some CF } : StorageReadCache).ht CF = some entry2 := there2
  obtain ⟨cache4, step4, ht4, links4, contents4, mru4, lru4, sz4, maxsz4, held4⟩ :=
    write_spec there3 fun entry => { entry with inqueue := true }
  have there4 : cache4.ht CF = some { entry2 with inqueue := true } := by
    rw [ht4, Function.update_self]
  refine ⟨{ cache4 with sz := (cache4.sz + entry2.buflen) % sizeModulus }, ?_, ?_⟩
  · rw [cacheLruAdd]
    simp only [there, Option.bind_eq_bind, Option.bind_some, step1, there1, step2, last3, step4,
      there4]
    exact if_neg fun absurdity => absurd (unqueued.symm.trans absurdity) (by decide)
  · refine ⟨?_, ?_, ?_, ?_, ?_⟩
    · show cache4.links = _
      rw [links4, Links.pushFront]
      have next2 : entry2.nextLru = cache.mru := by
        rw [← (links_entry there2).1, relinked2.links, links1]
        exact Function.update_self _ _ _
      apply links_ext
      · show Function.update cache2.links.next CF entry2.nextLru = _
        rw [next2, relinked2.links, links1, Function.update_idem]
        rfl
      · show Function.update cache2.links.prev CF entry2.nextMru = _
        have kept : Function.update cache2.links.prev CF entry2.nextMru = cache2.links.prev :=
          Function.update_eq_self_iff.mpr (links_entry there2).2.symm
        rw [kept, relinked2.links, links1]
        rfl
      · rfl
      · show (if cache2.lru = none then some CF else cache2.lru) = _
        rw [last2, lru1]
        rfl
    · show cache4.contents = _
      rw [contents4]
      show Function.update cache2.contents CF _ = _
      rw [relinked2.contents, same1, ← content2]
      rfl
    · show (cache4.sz + entry2.buflen) % sizeModulus = _
      rw [sz4, ← content2]
      show (cache2.sz + entry2.buflen) % sizeModulus = _
      rw [relinked2.sz, sz1]
      rfl
    · exact maxsz4.trans (relinked2.maxsz.trans maxsz1)
    · exact held4.trans (relinked2.held.trans held1)

end Queue

section Invariant

variable {files : ClassName → List UInt8 → Prop} {cache : StorageReadCache} {CF : ClassName}
  {order before after : List ClassName}

/-- The length of what is cached of a file. -/
def StorageReadCache.bytes (cache : StorageReadCache) (classname : ClassName) : Nat :=
  (cache.contents classname).elim 0 CachedContent.buflen

/-- The cache is sound for the contents that files may have, with the entries of its queue in
order. -/
structure Sound (files : ClassName → List UInt8 → Prop) (cache : StorageReadCache)
    (order : List ClassName) : Prop where
  /-- The queue is a doubly linked list. -/
  lists : cache.links.Lists order
  /-- It holds exactly the entries that are marked so. -/
  queued : ∀ classname, classname ∈ order ↔
    ∃ content, cache.contents classname = some content ∧ content.inqueue = true
  /-- The lengths of the buffers. -/
  buflen : ∀ classname content, cache.contents classname = some content →
    content.buflen = content.buf.elim 0 List.length
  /-- Entries outside of the queue have no buffer. -/
  evicted : ∀ classname content, cache.contents classname = some content →
    content.inqueue = false → content.buf = none
  /-- What is cached are contents that files may have. -/
  data : ∀ classname content buf, cache.contents classname = some content →
    content.buf = some buf → files classname buf
  /-- The byte counter is the length of what is cached. -/
  sz : cache.sz = (order.map cache.bytes).sum
  /-- So is the memory of the buffers. -/
  held : cache.held = cache.sz
  /-- They fit into the address space. -/
  small : cache.sz < sizeModulus

/-- An entry of the queue. -/
theorem Sound.present (sound : Sound files cache order) :
    ∀ classname ∈ order, (cache.contents classname).isSome := by
  intro classname member
  obtain ⟨content, here, _⟩ := (sound.queued classname).mp member
  rw [here]
  rfl

/-- An empty cache is sound. -/
theorem storageReadCacheInit_sound : Sound files storageReadCacheInit [] where
  lists := Links.empty_lists
  queued _ := by
    refine iff_of_false List.not_mem_nil ?_
    rintro ⟨_, absurdity, _⟩
    cases absurdity
  buflen _ _ absurdity := nomatch absurdity
  evicted _ _ absurdity := nomatch absurdity
  data _ _ _ absurdity := nomatch absurdity
  sz := rfl
  held := rfl
  small := by decide

/-- The lengths of what is cached of other files. -/
theorem sum_bytes_congr {cache' : StorageReadCache} {content : CachedContent}
    (contents : cache'.contents = Function.update cache.contents CF (some content))
    (fresh : CF ∉ order) : (order.map cache'.bytes).sum = (order.map cache.bytes).sum := by
  apply congrArg List.sum
  apply List.map_congr_left
  intro other member
  have apart : other ≠ CF := fun same => fresh (same ▸ member)
  rw [StorageReadCache.bytes, contents, Function.update_of_ne apart]
  rfl

/-- What is cached of the file itself. -/
theorem bytes_self {content : CachedContent} (here : cache.contents CF = some content) :
    cache.bytes CF = content.buflen := by
  rw [StorageReadCache.bytes, here]
  rfl

/-- The cache stays sound when one entry and the queue are changed together. -/
theorem Sound.change (sound : Sound files cache order) {cache' : StorageReadCache}
    {content : CachedContent} {order' : List ClassName}
    (contents : cache'.contents = Function.update cache.contents CF (some content))
    (lists : cache'.links.Lists order')
    (queued : ∀ other, other ∈ order' ↔ if other = CF then content.inqueue = true
      else other ∈ order)
    (buflen : content.buflen = content.buf.elim 0 List.length)
    (evicted : content.inqueue = false → content.buf = none)
    (data : ∀ buf, content.buf = some buf → files CF buf)
    (sz : cache'.sz = (order'.map cache'.bytes).sum) (held : cache'.held = cache'.sz)
    (small : cache'.sz < sizeModulus) : Sound files cache' order' := by
  have self : cache'.contents CF = some content := by
    rw [contents, Function.update_self]
  have others : ∀ other, other ≠ CF → cache'.contents other = cache.contents other := by
    intro other apart
    rw [contents, Function.update_of_ne apart]
  refine ⟨lists, ?_, ?_, ?_, ?_, sz, held, small⟩
  · intro other
    rw [queued other]
    split
    · rename_i same
      rw [same, self]
      exact ⟨fun marked => ⟨content, rfl, marked⟩, fun ⟨_, here, marked⟩ =>
        (Option.some.inj here) ▸ marked⟩
    · rename_i apart
      rw [others other apart]
      exact sound.queued other
  · intro other content' here
    by_cases same : other = CF
    · rw [same, self] at here
      exact Option.some.inj here ▸ buflen
    · rw [others other same] at here
      exact sound.buflen other content' here
  · intro other content' here
    by_cases same : other = CF
    · rw [same, self] at here
      exact Option.some.inj here ▸ evicted
    · rw [others other same] at here
      exact sound.evicted other content' here
  · intro other content' buf here
    by_cases same : other = CF
    · rw [same, self] at here
      rw [same]
      exact Option.some.inj here ▸ data buf
    · rw [others other same] at here
      exact sound.data other content' buf here

/-- The entry of a file that is in the queue, and the rest of the queue. -/
theorem Sound.split (sound : Sound files cache (before ++ CF :: after)) {content : CachedContent}
    (here : cache.contents CF = some content) : CF ∉ before ++ after ∧
      cache.sz = ((before ++ after).map cache.bytes).sum + content.buflen := by
  obtain ⟨_, nodupAfter, disjoint⟩ := List.nodup_append.mp sound.lists.nodup
  constructor
  · intro member
    rcases List.mem_append.mp member with front | back
    · exact disjoint CF front CF List.mem_cons_self rfl
    · exact (List.nodup_cons.mp nodupAfter).1 back
  · rw [sound.sz, List.map_append, List.map_cons, List.sum_append, List.sum_cons,
      bytes_self here, List.map_append, List.sum_append]
    omega

/-- An entry is taken out of the queue and its buffer is freed. -/
theorem Sound.evict (sound : Sound files cache (before ++ CF :: after)) {content : CachedContent}
    (here : cache.contents CF = some content) {cache' : StorageReadCache}
    (contents : cache'.contents = Function.update cache.contents CF (some ⟨none, 0, false⟩))
    (links : cache'.links = cache.links.unlink CF)
    (sz : cache'.sz = (cache.sz + (sizeModulus - content.buflen)) % sizeModulus)
    (held : cache'.held = cache.held - content.buflen) :
    Sound files cache' (before ++ after) := by
  obtain ⟨fresh, total⟩ := sound.split here
  have small := sound.small
  have less : cache'.sz = cache.sz - content.buflen := by
    rw [sz]
    unfold sizeModulus at small ⊢
    omega
  apply sound.change contents
  · rw [links]
    exact sound.lists.unlink
  · intro other
    split
    · rename_i same
      rw [same]
      exact iff_of_false fresh (by decide)
    · rename_i apart
      rw [List.mem_append, List.mem_append, List.mem_cons, or_iff_right apart]
  · rfl
  · exact fun _ => rfl
  · exact fun _ absurdity => nomatch absurdity
  · rw [sum_bytes_congr contents fresh, less]
    omega
  · rw [held, less, sound.held]
  · rw [less]
    omega

/-- An entry without data is put at the front of the queue. -/
theorem Sound.enqueue (sound : Sound files cache order) (fresh : CF ∉ order)
    {cache' : StorageReadCache}
    (contents : cache'.contents = Function.update cache.contents CF (some ⟨none, 0, true⟩))
    (lists : cache'.links.Lists (CF :: order)) (sz : cache'.sz = cache.sz % sizeModulus)
    (held : cache'.held = cache.held) : Sound files cache' (CF :: order) := by
  have self : cache'.contents CF = some ⟨none, 0, true⟩ := by
    rw [contents, Function.update_self]
  rw [Nat.mod_eq_of_lt sound.small] at sz
  apply sound.change contents lists
  · intro other
    split
    · rename_i same
      rw [same]
      exact iff_of_true List.mem_cons_self rfl
    · rename_i apart
      rw [List.mem_cons, or_iff_right apart]
  · rfl
  · exact fun absurdity => nomatch absurdity
  · exact fun _ absurdity => nomatch absurdity
  · rw [List.map_cons, List.sum_cons, bytes_self self, sum_bytes_congr contents fresh, sz,
      sound.sz]
    exact (Nat.zero_add _).symm
  · rw [held, sound.held, sz]
  · rw [sz]
    exact sound.small

/-- An entry is moved to the front of the queue. -/
theorem Sound.touch (sound : Sound files cache (before ++ CF :: after)) {content : CachedContent}
    (here : cache.contents CF = some content) (marked : content.inqueue = true)
    {cache' : StorageReadCache}
    (contents : cache'.contents = Function.update cache.contents CF (some content))
    (lists : cache'.links.Lists (CF :: (before ++ after))) (sz : cache'.sz = cache.sz)
    (held : cache'.held = cache.held) : Sound files cache' (CF :: (before ++ after)) := by
  obtain ⟨fresh, total⟩ := sound.split here
  have self : cache'.contents CF = some content := by
    rw [contents, Function.update_self]
  apply sound.change contents lists
  · intro other
    split
    · rename_i same
      rw [same]
      exact iff_of_true List.mem_cons_self marked
    · rename_i apart
      rw [List.mem_cons, or_iff_right apart, List.mem_append, List.mem_append, List.mem_cons,
        or_iff_right apart]
  · exact sound.buflen CF content here
  · exact sound.evicted CF content here
  · exact fun buf => sound.data CF content buf here
  · rw [List.map_cons, List.sum_cons, bytes_self self, sum_bytes_congr contents fresh, sz]
    omega
  · rw [held, sound.held, sz]
  · rw [sz]
    exact sound.small

/-- Data of a file is added. -/
theorem Sound.fill (sound : Sound files cache (before ++ CF :: after)) {buf : List UInt8}
    (here : cache.contents CF = some ⟨none, 0, true⟩) {cache' : StorageReadCache}
    (contents : cache'.contents =
      Function.update cache.contents CF (some ⟨some buf, buf.length, true⟩))
    (links : cache'.links = cache.links) (data : files CF buf)
    (sz : cache'.sz = (cache.sz + buf.length) % sizeModulus)
    (held : cache'.held = cache.held + buf.length) (room : cache.held + buf.length < sizeModulus) :
    Sound files cache' (before ++ CF :: after) := by
  obtain ⟨fresh, total⟩ := sound.split here
  have self : cache'.contents CF = some ⟨some buf, buf.length, true⟩ := by
    rw [contents, Function.update_self]
  rw [sound.held] at held room
  rw [Nat.mod_eq_of_lt room] at sz
  apply sound.change contents
  · rw [links]
    exact sound.lists
  · intro other
    split
    · rename_i same
      rw [same]
      exact iff_of_true (List.mem_append_right _ List.mem_cons_self) rfl
    · exact Iff.rfl
  · rfl
  · exact fun absurdity => nomatch absurdity
  · intro buf' same
    exact Option.some.inj same ▸ data
  · have rest := sum_bytes_congr contents fresh
    rw [List.map_append, List.sum_append] at rest
    rw [sz, total, ← rest, List.map_append, List.sum_append, List.map_cons, List.sum_cons,
      bytes_self self]
    simp only
    omega
  · rw [held, sz]
  · rw [sz]
    exact room

end Invariant

section Calls

variable {files : ClassName → List UInt8 → Prop} {cache : StorageReadCache} {CF : ClassName}
  {order before : List ClassName}

/-- An entry of the queue can be taken out. -/
theorem Sound.remove (sound : Sound files cache order) (member : CF ∈ order) :
    ∃ before after content cache', order = before ++ CF :: after ∧
      cache.contents CF = some content ∧ content.inqueue = true ∧
      cacheLruRemove cache CF = some cache' ∧
      Requeued cache cache' CF { content with inqueue := false } (cache.links.unlink CF)
        ((cache.sz + (sizeModulus - content.buflen)) % sizeModulus) := by
  obtain ⟨before, after, rfl⟩ := List.append_of_mem member
  obtain ⟨content, here, marked⟩ := (sound.queued CF).mp member
  obtain ⟨cache', removed, requeued⟩ := cacheLruRemove_spec sound.lists sound.present here marked
  exact ⟨before, after, content, cache', rfl, here, marked, removed, requeued⟩

/-- What is cached of a file. -/
def StorageReadCache.cached (cache : StorageReadCache) (classname : ClassName) :
    Option (List UInt8) :=
  (cache.contents classname).bind CachedContent.buf

/-- What a cache stands for, with the entries of its queue in order. -/
def StorageReadCache.view (cache : StorageReadCache) (order : List ClassName) : Lru :=
  ⟨order, cache.cached, fun classname => (cache.contents classname).isSome, cache.maxsz⟩

/-- The lengths of what is cached. -/
theorem Sound.length (sound : Sound files cache order) :
    (cache.view order).length = cache.bytes := by
  funext classname
  rw [Lru.length, StorageReadCache.bytes]
  show (cache.cached classname).elim 0 List.length = _
  rw [StorageReadCache.cached]
  cases here : cache.contents classname with
  | none => rfl
  | some content => exact (sound.buflen classname content here).symm

/-- The byte counter is the length of all that is cached. -/
theorem Sound.size (sound : Sound files cache order) : (cache.view order).size = cache.sz := by
  rw [Lru.size, sound.length, sound.sz]
  rfl

/-- Of files outside of the queue nothing is cached. -/
theorem Sound.uncached (sound : Sound files cache order) (absent : CF ∉ order) :
    cache.cached CF = none := by
  rw [StorageReadCache.cached]
  cases here : cache.contents CF with
  | none => rfl
  | some content =>
    refine sound.evicted CF content here (eq_false_of_ne_true fun marked => absent ?_)
    exact (sound.queued CF).mpr ⟨content, here, marked⟩

/-- Pruning keeps all of a cache that is not over its limit. -/
theorem Sound.prune_self (sound : Sound files cache order) (fits : cache.sz ≤ cache.maxsz) :
    (cache.view order).prune = cache.view order := by
  have all : keep (cache.view order).length cache.maxsz order = order :=
    keep_self (sound.size.trans_le fits)
  refine congr (congr (congr (congrArg Lru.mk all) ?_) rfl) rfl
  funext one
  show (if one ∈ keep (cache.view order).length cache.maxsz order then cache.cached one
    else none) = cache.cached one
  rw [all]
  split
  · rfl
  · rename_i absent
    exact (sound.uncached absent).symm

/-- Pruning a cache over its limit keeps what is kept without its last entry. -/
theorem Sound.prune_evict (sound : Sound files cache (before ++ [CF]))
    (outside : cache.maxsz < cache.sz) {cache' : StorageReadCache}
    (sound' : Sound files cache' before)
    (contents : cache'.contents = Function.update cache.contents CF (some ⟨none, 0, false⟩))
    (maxsz : cache'.maxsz = cache.maxsz) :
    (cache'.view before).prune = (cache.view (before ++ [CF])).prune := by
  have here : (cache.contents CF).isSome := sound.present CF (List.mem_append_right _
    List.mem_cons_self)
  have fresh : CF ∉ before := by
    intro member
    obtain ⟨_, _, disjoint⟩ := List.nodup_append.mp sound.lists.nodup
    exact disjoint CF member CF List.mem_cons_self rfl
  have others : ∀ other, other ≠ CF → cache'.contents other = cache.contents other := by
    intro other apart
    rw [contents, Function.update_of_ne apart]
  have queue : keep (cache'.view before).length cache'.maxsz before =
      keep (cache.view (before ++ [CF])).length cache.maxsz (before ++ [CF]) := by
    rw [sound.length, sound'.length, maxsz, keep_concat (sound.sz ▸ outside)]
    refine keep_congr fun one member => ?_
    rw [StorageReadCache.bytes, StorageReadCache.bytes,
      others one fun same => fresh (same ▸ member)]
  rw [Lru.prune, Lru.prune]
  show Lru.mk (keep (cache'.view before).length cache'.maxsz before) _ _ _ =
    Lru.mk (keep (cache.view (before ++ [CF])).length cache.maxsz (before ++ [CF])) _ _ _
  refine congr (congr (congr (congrArg Lru.mk queue) ?_) ?_) maxsz
  · funext one
    show (if one ∈ keep (cache'.view before).length cache'.maxsz before then
      cache'.cached one else none) = if one ∈ keep (cache.view (before ++ [CF])).length cache.maxsz
        (before ++ [CF]) then cache.cached one else none
    rw [← queue]
    split
    · rename_i kept
      have apart : one ≠ CF := fun same => fresh (same ▸ keep_front.subset kept)
      rw [StorageReadCache.cached, StorageReadCache.cached, others one apart]
    · rfl
  · funext one
    show (cache'.contents one).isSome = (cache.contents one).isSome
    by_cases same : one = CF
    · rw [same, contents, Function.update_self, here]
      rfl
    · rw [others one same]

/-- An entry comes to the front of the queue with the data that it has. -/
theorem view_front {cache' : StorageReadCache} {content : CachedContent}
    (contents : cache'.contents = Function.update cache.contents CF (some content))
    (same : content.buf = cache.cached CF) (maxsz : cache'.maxsz = cache.maxsz) :
    cache'.view (CF :: before) = { cache.view order with
      queue := CF :: before, named := Function.update (cache.view order).named CF true } := by
  refine congr (congr (congrArg (Lru.mk _) ?_) ?_) maxsz
  · funext one
    rw [StorageReadCache.cached, contents]
    by_cases here : one = CF
    · rw [here, Function.update_self]
      exact same
    · rw [Function.update_of_ne here]
      rfl
  · funext one
    rw [contents]
    by_cases here : one = CF
    · rw [here, Function.update_self, Function.update_self]
      rfl
    · rw [Function.update_of_ne here, Function.update_of_ne here]
      rfl

/-- Data is added to an entry. -/
theorem view_fill {cache' : StorageReadCache} {content content' : CachedContent}
    (here : cache.contents CF = some content)
    (contents : cache'.contents = Function.update cache.contents CF (some content'))
    (maxsz : cache'.maxsz = cache.maxsz) :
    cache'.view order = { cache.view order with
      data := Function.update (cache.view order).data CF content'.buf } := by
  refine congr (congr (congrArg (Lru.mk _) ?_) ?_) maxsz
  · funext one
    rw [StorageReadCache.cached, contents]
    by_cases same : one = CF
    · rw [same, Function.update_self, Function.update_self]
      rfl
    · rw [Function.update_of_ne same, Function.update_of_ne same]
      rfl
  · funext one
    rw [contents]
    by_cases same : one = CF
    · rw [same, Function.update_self]
      show true = (cache.contents CF).isSome
      rw [here]
      rfl
    · rw [Function.update_of_ne same]
      rfl

/-- The least recently used entry is taken out, and its buffer is freed. -/
theorem Sound.pruneRound {before : List ClassName} (sound : Sound files cache (before ++ [CF])) :
    ∃ cache1 entry cache2, cacheLruRemove cache CF = some cache1 ∧ cache1.ht CF = some entry ∧
      ({ cache1 with held := cache1.held - entry.buf.elim 0 List.length } :
        StorageReadCache).write CF (fun entry => { entry with buf := none, buflen := 0 }) =
        some cache2 ∧ Sound files cache2 before ∧ cache2.maxsz = cache.maxsz ∧
      cache2.contents = Function.update cache.contents CF (some ⟨none, 0, false⟩) := by
  obtain ⟨content, here, marked⟩ :=
    (sound.queued CF).mp (List.mem_append_right _ List.mem_cons_self)
  obtain ⟨cache1, removed, requeued⟩ := cacheLruRemove_spec sound.lists sound.present here marked
  have self : cache1.contents CF = some { content with inqueue := false } := by
    rw [requeued.contents, Function.update_self]
  obtain ⟨entry, there, same⟩ := entry_of_contents self
  have there' : ({ cache1 with held := cache1.held - entry.buf.elim 0 List.length } :
      StorageReadCache).ht CF = some entry := there
  obtain ⟨cache2, written, ht2, links2, contents2, mru2, lru2, sz2, maxsz2, held2⟩ :=
    write_spec there' fun entry => { entry with buf := none, buflen := 0 }
  have contents : cache2.contents =
      Function.update cache.contents CF (some ⟨none, 0, false⟩) := by
    rw [contents2]
    show Function.update cache1.contents CF _ = _
    rw [requeued.contents, Function.update_idem]
    have unmarked : entry.inqueue = false := congrArg CachedContent.inqueue same
    rw [ReadFileCached.content]
    simp only [unmarked]
  refine ⟨cache1, entry, cache2, removed, there, written, ?_, maxsz2.trans requeued.maxsz,
    contents⟩
  have length : entry.buf.elim 0 List.length = content.buflen := by
    rw [sound.buflen CF content here]
    exact congrArg (fun content : CachedContent => content.buf.elim 0 List.length) same
  have evicted := @Sound.evict files cache CF before [] sound content here cache2
  rw [List.append_nil] at evicted
  apply evicted contents
  · rw [links2, ← requeued.links]
    apply links_ext
    · exact Function.update_eq_self_iff.mpr (links_entry there).1.symm
    · exact Function.update_eq_self_iff.mpr (links_entry there).2.symm
    · rfl
    · rfl
  · exact sz2.trans requeued.sz
  · rw [held2]
    show cache1.held - _ = _
    rw [requeued.held, length]

/-- Pruning ends, with a cache that is not over its limit, and keeps of the queue what it is to
keep. -/
theorem cachePrune_spec : ∀ (fuel : Nat) {cache : StorageReadCache} {order : List ClassName},
    Sound files cache order → order.length ≤ fuel →
    ∃ cache' order', cachePrune fuel cache = some cache' ∧ Sound files cache' order' ∧
      cache'.view order' = (cache.view order).prune ∧ cache'.sz ≤ cache'.maxsz := by
  intro fuel
  induction fuel with
  | zero =>
    intro cache order sound few
    obtain rfl := List.eq_nil_of_length_eq_zero (Nat.le_zero.mp few)
    have empty : cache.sz ≤ cache.maxsz := by
      rw [sound.sz]
      exact Nat.zero_le _
    exact ⟨cache, [], by rw [cachePrune, if_pos empty], sound, (sound.prune_self empty).symm,
      empty⟩
  | succ fuel ih =>
    intro cache order sound few
    by_cases fits : cache.sz ≤ cache.maxsz
    · exact ⟨cache, order, by rw [cachePrune, if_pos fits], sound, (sound.prune_self fits).symm,
        fits⟩
    · rcases List.eq_nil_or_concat order with rfl | ⟨before, CF, rfl⟩
      · rw [sound.sz] at fits
        exact absurd (Nat.zero_le _) fits
      · have last : cache.lru = some CF := by
          have tail := sound.lists.last
          rw [List.concat_eq_append, List.getLast?_concat] at tail
          exact tail
        rw [List.concat_eq_append] at sound few ⊢
        rw [List.length_append, List.length_singleton] at few
        obtain ⟨cache1, entry, cache2, removed, there, written, sound', maxsz', contents⟩ :=
          sound.pruneRound
        obtain ⟨cache', order', pruned, sound'', kept, within⟩ := ih sound' (by omega)
        have evicted := sound.prune_evict (Nat.not_le.mp fits) sound' contents maxsz'
        refine ⟨cache', order', ?_, sound'', kept.trans evicted, within⟩
        rw [cachePrune, if_neg fits, last]
        simp only [Option.bind_eq_bind, Option.bind_some, removed, there, written, pruned]

/-- The links of a queue do not depend on an entry outside of it. -/
theorem lists_update {links links' : Links ClassName} (lists : links.Lists order)
    (fresh : CF ∉ order) (next : ∀ other, other ≠ CF → links'.next other = links.next other)
    (prev : ∀ other, other ≠ CF → links'.prev other = links.prev other)
    (first : links'.first = links.first) (last : links'.last = links.last) :
    links'.Lists order := by
  have apart : ∀ other ∈ order, other ≠ CF := fun other member same => fresh (same ▸ member)
  refine ⟨lists.nodup, first.trans lists.first, last.trans lists.last, ?_, ?_⟩
  · exact lists.next.congr fun other member => next other (apart other member)
  · exact lists.prev.congr fun other member =>
      prev other (apart other (List.mem_reverse.mp member))

/-- An entry of the queue is moved to its front. -/
theorem Sound.toFront (sound : Sound files cache order) (member : CF ∈ order) :
    ∃ cache1 cache2, cacheLruRemove cache CF = some cache1 ∧
      cacheLruAdd cache1 CF = some cache2 ∧ Sound files cache2 (CF :: order.erase CF) ∧
      cache2.view (CF :: order.erase CF) = { cache.view order with
        queue := CF :: order.erase CF
        named := Function.update (cache.view order).named CF true } ∧
      cache2.sz = cache.sz ∧ cache2.maxsz = cache.maxsz := by
  obtain ⟨before, after, content, cache1, rfl, here, marked, removed, requeued⟩ :=
    sound.remove member
  have self : cache1.contents CF = some { content with inqueue := false } := by
    rw [requeued.contents, Function.update_self]
  obtain ⟨fresh, total⟩ := sound.split here
  have lists1 : cache1.links.Lists (before ++ after) := by
    rw [requeued.links]
    exact sound.lists.unlink
  have present1 : ∀ other ∈ before ++ after, (cache1.contents other).isSome := by
    intro other among
    have apart : other ≠ CF := fun same => fresh (same ▸ among)
    rw [requeued.contents, Function.update_of_ne apart]
    apply sound.present
    rcases List.mem_append.mp among with front | back
    · exact List.mem_append_left _ front
    · exact List.mem_append_right _ (List.mem_cons_of_mem _ back)
  obtain ⟨cache2, added, requeued2⟩ := cacheLruAdd_spec lists1 present1 self rfl
  have small := sound.small
  have sz2 : cache2.sz = cache.sz := by
    rw [requeued2.sz, requeued.sz]
    simp only
    unfold sizeModulus at *
    omega
  have erased : (before ++ CF :: after).erase CF = before ++ after := by
    rw [List.erase_append_right _ fun front => fresh (List.mem_append_left _ front),
      List.erase_cons_head]
  have contents : cache2.contents = Function.update cache.contents CF (some content) := by
    rw [requeued2.contents, requeued.contents, Function.update_idem, ← marked]
  have maxsz := requeued2.maxsz.trans requeued.maxsz
  rw [erased]
  refine ⟨cache1, cache2, removed, added, ?_, view_front contents ?_ maxsz, sz2, maxsz⟩
  · apply sound.touch here marked contents
    · rw [requeued2.links]
      exact lists1.pushFront fresh
    · exact sz2
    · exact requeued2.held.trans requeued.held
  · rw [StorageReadCache.cached, here]
    rfl

/-- An entry outside of the queue is put at its front. -/
theorem Sound.readd (sound : Sound files cache order) {content : CachedContent}
    (here : cache.contents CF = some content) (unmarked : content.inqueue = false) :
    ∃ cache', cacheLruAdd cache CF = some cache' ∧ Sound files cache' (CF :: order) ∧
      CF ∉ order ∧ cache'.contents = Function.update cache.contents CF (some ⟨none, 0, true⟩) ∧
      cache'.sz = cache.sz ∧ cache'.maxsz = cache.maxsz := by
  have fresh : CF ∉ order := by
    intro member
    obtain ⟨content', here', marked⟩ := (sound.queued CF).mp member
    rw [here] at here'
    obtain rfl := Option.some.inj here'
    rw [unmarked] at marked
    cases marked
  have length := sound.buflen CF content here
  have empty := sound.evicted CF content here unmarked
  obtain ⟨cache', added, requeued⟩ := cacheLruAdd_spec sound.lists sound.present here unmarked
  obtain ⟨buf, buflen, inqueue⟩ := content
  simp only at length empty unmarked
  subst empty unmarked
  obtain rfl : buflen = 0 := length
  have sz : cache'.sz = cache.sz % sizeModulus := requeued.sz
  refine ⟨cache', added, ?_, fresh, requeued.contents, ?_, requeued.maxsz⟩
  · apply sound.enqueue fresh requeued.contents
    · rw [requeued.links]
      exact sound.lists.pushFront fresh
    · exact sz
    · exact requeued.held
  · rw [sz, Nat.mod_eq_of_lt sound.small]

/-- A new entry is put at the front of the queue. -/
theorem Sound.insert (sound : Sound files cache order) (absent : cache.ht CF = none) :
    ∃ cache', cacheLruAdd { cache with
        ht := Function.update cache.ht CF (some ⟨none, 0, none, none, false⟩) } CF = some cache' ∧
      Sound files cache' (CF :: order) ∧ CF ∉ order ∧
      cache'.contents = Function.update cache.contents CF (some ⟨none, 0, true⟩) ∧
      cache'.sz = cache.sz ∧ cache'.maxsz = cache.maxsz := by
  generalize inserted : ({ cache with
    ht := Function.update cache.ht CF (some ⟨none, 0, none, none, false⟩) } : StorageReadCache) =
    cache0
  have ht0 : cache0.ht = Function.update cache.ht CF (some ⟨none, 0, none, none, false⟩) := by
    rw [← inserted]
  have sz0 : cache0.sz = cache.sz := by rw [← inserted]
  have held0 : cache0.held = cache.held := by rw [← inserted]
  have maxsz0 : cache0.maxsz = cache.maxsz := by rw [← inserted]
  have first0 : cache0.mru = cache.mru := by rw [← inserted]
  have last0 : cache0.lru = cache.lru := by rw [← inserted]
  have fresh : CF ∉ order := by
    intro member
    obtain ⟨content, here, _⟩ := (sound.queued CF).mp member
    rw [StorageReadCache.contents, absent] at here
    cases here
  have contents0 : cache0.contents = Function.update cache.contents CF (some ⟨none, 0, false⟩) := by
    funext other
    by_cases same : other = CF
    · simp only [StorageReadCache.contents, ht0, same, Function.update_self, Option.map_some]
      rfl
    · simp only [StorageReadCache.contents, ht0, Function.update_of_ne same]
  have sound0 : Sound files cache0 order := by
    apply sound.change contents0
    · apply lists_update sound.lists fresh
      · intro other apart
        simp only [StorageReadCache.links, ht0, Function.update_of_ne apart]
      · intro other apart
        simp only [StorageReadCache.links, ht0, Function.update_of_ne apart]
      · exact first0
      · exact last0
    · intro other
      split
      · rename_i same
        rw [same]
        exact iff_of_false fresh (by decide)
      · exact Iff.rfl
    · rfl
    · exact fun _ => rfl
    · exact fun _ absurdity => nomatch absurdity
    · rw [sz0, sum_bytes_congr contents0 fresh, sound.sz]
    · rw [held0, sz0, sound.held]
    · rw [sz0]
      exact sound.small
  have self : cache0.contents CF = some ⟨none, 0, false⟩ := by
    rw [contents0, Function.update_self]
  obtain ⟨cache', added, sound', fresh', contents', sz', maxsz'⟩ := sound0.readd self rfl
  rw [contents0, Function.update_idem] at contents'
  exact ⟨cache', added, sound', fresh', contents', sz'.trans sz0, maxsz'.trans maxsz0⟩

/-- A file is named to the cache. -/
theorem storageReadCacheAddName_spec {fuel : Nat} (sound : Sound files cache order)
    (few : order.length ≤ fuel) (granted : Bool) : ∃ cache' order',
      storageReadCacheAddName fuel cache CF granted =
        some (cache', ((cache.view order).addName CF granted).2) ∧
      Sound files cache' order' ∧
      cache'.view order' = ((cache.view order).addName CF granted).1 ∧
      order'.length ≤ order.length + 1 := by
  obtain ⟨cache1, order1, pruned, sound1, kept, _⟩ := cachePrune_spec fuel sound few
  have short : order1.length ≤ order.length := by
    rw [show order1 = (cache.view order).prune.queue from congrArg Lru.queue kept]
    exact keep_front.length_le
  have named : (cache.view order).prune.named CF = (cache1.contents CF).isSome := by
    rw [← kept]
    rfl
  rw [storageReadCacheAddName, pruned]
  simp only [Option.bind_eq_bind, Option.bind_some]
  cases there : cache1.ht CF with
  | some entry =>
    have here : cache1.contents CF = some entry.content := by
      rw [StorageReadCache.contents, there]
      rfl
    rw [here] at named
    rw [Lru.addName_front (.inl named), ← kept]
    by_cases marked : entry.inqueue = true
    · have member := (sound1.queued CF).mpr ⟨_, here, marked⟩
      obtain ⟨cache2, cache3, removed, added, sound', view', _, _⟩ := sound1.toFront member
      refine ⟨cache3, _, ?_, sound', view', ?_⟩
      · simp only [marked, if_true, removed, Option.bind_some, added]
        rfl
      · rw [List.length_cons, List.length_erase_of_mem member]
        omega
    · obtain ⟨cache2, added, sound', fresh, contents, _, maxsz'⟩ :=
        sound1.readd here (eq_false_of_ne_true marked)
      have front := @view_front cache1 CF order1 order1 cache2 _ contents
        (sound1.uncached fresh).symm maxsz'
      refine ⟨cache2, CF :: order1, ?_, sound', front.trans ?_, ?_⟩
      · simp only [marked, Option.bind_some, added]
        rfl
      · show _ = Lru.mk (CF :: order1.erase CF) _ _ _
        rw [List.erase_of_not_mem fresh]
      · rw [List.length_cons]
        omega
  | none =>
    have absent : cache1.contents CF = none := by
      rw [StorageReadCache.contents, there]
      rfl
    rw [absent] at named
    cases granted with
    | false =>
      rw [Lru.addName_refused named, ← kept]
      exact ⟨cache1, order1, rfl, sound1, rfl, by omega⟩
    | true =>
      rw [Lru.addName_front (.inr rfl), ← kept]
      obtain ⟨cache2, added, sound', fresh, contents, _, maxsz'⟩ := sound1.insert there
      have front := @view_front cache1 CF order1 order1 cache2 _ contents
        (sound1.uncached fresh).symm maxsz'
      refine ⟨cache2, CF :: order1, ?_, sound', front.trans ?_, ?_⟩
      · simp only [Bool.true_eq_false, if_false, added, Option.bind_some]
        rfl
      · show _ = Lru.mk (CF :: order1.erase CF) _ _ _
        rw [List.erase_of_not_mem fresh]
      · rw [List.length_cons]
        omega

/-- An entry of the queue without data gets data, if there is room for it. -/
theorem Sound.store (sound : Sound files cache order) {entry : ReadFileCached}
    (there : cache.ht CF = some entry) (marked : entry.inqueue = true) (empty : entry.buf = none)
    {buf : List UInt8} (data : files CF buf) {granted : Bool}
    (room : granted = true ∧ cache.sz + buf.length < sizeModulus) {cache' : StorageReadCache}
    (ht : cache'.ht = Function.update cache.ht CF
      (some { entry with buf := some buf, buflen := buf.length }))
    (ends : cache'.mru = cache.mru ∧ cache'.lru = cache.lru) (maxsz : cache'.maxsz = cache.maxsz)
    (sz : cache'.sz = (cache.sz + buf.length) % sizeModulus)
    (held : cache'.held = cache.sz + buf.length) :
    Sound files cache' order ∧ cache'.view order = (cache.view order).addData CF buf granted := by
  have here : cache.contents CF = some ⟨none, 0, true⟩ := by
    have same : cache.contents CF = some entry.content := by
      rw [StorageReadCache.contents, there]
      rfl
    have length := sound.buflen CF _ same
    rw [ReadFileCached.content] at same length
    simp only [empty, marked] at same length
    rw [same, length]
    rfl
  have cached : cache.cached CF = none := by
    rw [StorageReadCache.cached, here]
    rfl
  have member := (sound.queued CF).mpr ⟨_, here, rfl⟩
  have contents : cache'.contents =
      Function.update cache.contents CF (some ⟨some buf, buf.length, true⟩) := by
    funext other
    by_cases same : other = CF
    · simp only [StorageReadCache.contents, ht, same, Function.update_self, Option.map_some,
        ReadFileCached.content, marked]
    · simp only [StorageReadCache.contents, ht, Function.update_of_ne same]
  have links : cache'.links = cache.links := by
    apply links_ext
    · funext other
      by_cases same : other = CF
      · simp only [StorageReadCache.links, ht, same, Function.update_self, there,
          Option.bind_some]
      · simp only [StorageReadCache.links, ht, Function.update_of_ne same]
    · funext other
      by_cases same : other = CF
      · simp only [StorageReadCache.links, ht, same, Function.update_self, there,
          Option.bind_some]
      · simp only [StorageReadCache.links, ht, Function.update_of_ne same]
    · exact ends.1
    · exact ends.2
  constructor
  · obtain ⟨before, after, split⟩ := List.append_of_mem member
    rw [split] at sound ⊢
    exact sound.fill here contents links data sz (by rw [held, sound.held])
      (by rw [sound.held]; exact room.2)
  · rw [Lru.addData, sound.size]
    exact (view_fill here contents maxsz).trans (if_pos ⟨member, cached, room⟩).symm

/-- Data that a file may have is added to the cache. -/
theorem storageReadCacheAddData_spec (sound : Sound files cache order) {buf : List UInt8}
    (data : files CF buf) (granted : Bool) :
    Sound files (storageReadCacheAddData cache CF buf granted) order ∧
      (storageReadCacheAddData cache CF buf granted).view order =
        (cache.view order).addData CF buf granted := by
  have refuse : ¬(CF ∈ order ∧ cache.cached CF = none ∧ granted = true ∧
      cache.sz + buf.length < sizeModulus) →
      cache.view order = (cache.view order).addData CF buf granted := by
    intro refused
    rw [Lru.addData, sound.size]
    exact (if_neg refused).symm
  rw [storageReadCacheAddData]
  cases there : cache.ht CF with
  | none =>
    refine ⟨sound, refuse fun all => ?_⟩
    obtain ⟨content, here, _⟩ := (sound.queued CF).mp all.1
    rw [StorageReadCache.contents, there] at here
    cases here
  | some entry =>
    have here : cache.contents CF = some entry.content := by
      rw [StorageReadCache.contents, there]
      rfl
    simp only
    split
    · rename_i unmarked
      refine ⟨sound, refuse fun all => ?_⟩
      obtain ⟨content, here', marked⟩ := (sound.queued CF).mp all.1
      rw [here] at here'
      obtain rfl := Option.some.inj here'
      exact absurd (marked.symm.trans unmarked) (by decide)
    rename_i marked
    replace marked : entry.inqueue = true := eq_true_of_ne_false marked
    split
    · rename_i full
      refine ⟨sound, refuse fun all => ?_⟩
      have empty := all.2.1
      rw [StorageReadCache.cached, here] at empty
      change entry.buf = none at empty
      rw [empty] at full
      cases full
    rename_i empty
    rw [Option.not_isSome_iff_eq_none] at empty
    rw [StorageReadCache.malloc, sound.held]
    split
    · rename_i starved
      split at starved
      · cases starved
      · rename_i room
        exact ⟨sound, refuse fun all => room all.2.2⟩
    rename_i cache1 allocated
    split at allocated
    · rename_i room
      cases allocated
      exact sound.store there marked empty data room rfl ⟨rfl, rfl⟩ rfl rfl rfl
    · cases allocated

/-- What is found in the cache is what is cached, and contents that the file may have. -/
theorem storageReadCacheFind_spec (sound : Sound files cache order) :
    cache.cached CF = none ∧ (storageReadCacheFind cache CF).1 = none ∨
      ∃ buf, cache.cached CF = some buf ∧
        storageReadCacheFind cache CF = (some buf, buf.length) ∧ files CF buf := by
  rw [storageReadCacheFind, StorageReadCache.cached, StorageReadCache.contents]
  cases there : cache.ht CF with
  | none => exact .inl ⟨rfl, rfl⟩
  | some entry =>
    have here : cache.contents CF = some entry.content := by
      rw [StorageReadCache.contents, there]
      rfl
    have length := sound.buflen CF _ here
    rw [ReadFileCached.content] at here length
    cases cached : entry.buf with
    | none => exact .inl ⟨cached, cached⟩
    | some buf =>
      simp only [cached] at here length
      refine .inr ⟨buf, cached, ?_, sound.data CF _ buf here rfl⟩
      simp only [cached, length]
      rfl

end Calls

end Tarsnap.Storage
