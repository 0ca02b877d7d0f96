import HistoryCache.Proofs.Turns

/-!
# The rounds of an operation

Which rounds of eviction does an operation make?  They are listed along the recursion that makes them
(`Cache.Rounds`): a charge that does not fit makes one, and nothing else does.

* `Cache.Goes.charge`, `holdValue`, `write`, `ingest`, `ensure`, `finishFill`: what each does are its
  rounds, and what lies between them is steady.
* `Cache.Goes.start`: a request finds the cache before anything else.
-/

namespace HistoryCache.Cache

/-! ## Rounds -/

namespace Rounds

/-- What comes after a success. -/
def andThen {α : Type} (result : Except CacheFailure α × Cache) (rounds : α → Cache → List Turn) :
    List Turn :=
  match result with
  | (.ok a, c) => rounds a c
  | (.error _, _) => []

/-- One round if there is no room. -/
def charge (c : Cache) (now : Int) (source : ItemId) (size : Nat) : List Turn :=
  match c.budget.tryCharge size with
  | (true, _) => []
  | (false, budget) => [.round now source size { c with budget := budget }]

def holdText (c : Cache) (now : Int) (source : ItemId) (s : String) : List Turn :=
  match c.strings.lookup? s with
  | some _ => []
  | none => charge c now source (StringPool.entryBytes s)

def takeTexts (now : Int) (source : ItemId) : List String → Cache → List Turn
  | [], _ => []
  | s :: rest, c =>
    holdText c now source s ++ andThen (c.holdText now source s) fun _ c => takeTexts now source rest c

def holdValue (c : Cache) (now : Int) (source : ItemId) (v : Value) : List Turn :=
  match v with
  | .log entry =>
    charge c now source LogEntry.bytes ++ andThen (c.charge now source LogEntry.bytes) fun _ c =>
      takeTexts now source (Value.log entry).texts c
  | v => takeTexts now source v.texts c

def openOldest (c : Cache) (now : Int) (id : ItemId) (waiting : List Record) (h : History) : List Turn :=
  if h.hasRoom then []
  else charge c now id (Chunk.bytes (History.capacityFor (h.size + waiting.length)))

def fill (now : Int) (id : ItemId) : List Record → History → Cache → List Turn
  | [], _, _ => []
  | r :: older, h, c =>
    openOldest c now id (r :: older) h ++ andThen (c.openOldest now id (r :: older) h) fun h c =>
      holdValue c now id r.value ++ andThen (c.holdValue now id r.value) fun value c =>
        fill now id older (h.pushOldest ⟨r.time, value⟩) c

def prepend (c : Cache) (now : Int) (id : ItemId) (records : List Record) (item : Item) : List Turn :=
  fill now id (belowHistory item.history records) item.history c

def openNewest (c : Cache) (now : Int) (id : ItemId) (h : History) : List Turn :=
  match h.reserve? with
  | some _ => []
  | none => charge c now id (Chunk.bytes (History.capacityFor (h.size + 1)))

def reserve (c : Cache) (now : Int) (id : ItemId) (r : Record) (h : History) : List Turn :=
  holdValue c now id r.value ++ andThen (c.holdValue now id r.value) fun _ c => openNewest c now id h

def insert (c : Cache) (now : Int) (id : ItemId) (r : Record) (item : Item) : List Turn :=
  match item.history.position? r.time with
  | none => []
  | some _ => reserve c now id r item.history

def write (c : Cache) (now : Int) (id : ItemId) (r : Record) (item : Item) : List Turn :=
  match item.history.newest?, item.history.oldest? with
  | some newest, some oldest =>
    if newest.time ≤ r.time then reserve c now id r item.history
    else if oldest.time ≤ r.time then insert c now id r item
    else []
  | none, _ =>
    if !item.cachedAll && item.coveredFrom.any fun s => decide (r.sec < s) then []
    else reserve c now id r item.history
  | some _, none => reserve c now id r item.history

def offer (c : Cache) (now expireBefore : Int) (id : ItemId) (r : Record) (item : Item) : List Turn :=
  if item.state = .removePending then []
  else if item.kind ≠ r.value.kind then []
  else if item.lastAccessed < expireBefore then []
  else write c now id r item

def ingestOne (now expireBefore : Int) (c : Cache) (w : ItemRecord) : List Turn :=
  match (c.pin w.item).items[w.item]? with
  | none => []
  | some item => offer ((c.pin w.item).checkOut w.item) now expireBefore w.item w.record item

def ingestAll (now expireBefore : Int) : List ItemRecord → Cache → List Turn
  | [], _ => []
  | w :: writes, c =>
    ingestOne now expireBefore c w ++ ingestAll now expireBefore writes (c.ingestOne now expireBefore w)

def ingest (c : Cache) (now : Int) (writes : List ItemRecord) : List Turn :=
  ingestAll now (c.expireBefore now) writes c

def ensure (c : Cache) (now : Int) (q : Request) : List Turn :=
  if c.items.contains q.item then []
  else if c.mode = .lowMemory then []
  else charge c now q.item Item.entryBytes

def extend (c : Cache) (now : Int) (q : Request) (fill : Fill) (fetched : Fetched) : List Turn :=
  match c.items[q.item]? with
  | none => []
  | some item =>
    if item.tailWrites ≠ fill.tailWrites ∨ item.state = .removePending then []
    else prepend (c.checkOut q.item) now q.item fetched.records item

def finishFill (c : Cache) (now : Int) (q : Request) (fill : Fill)
    (result : Except StoreFailure Fetched) : List Turn :=
  match result with
  | .error _ => []
  | .ok fetched => extend c now q fill fetched

end Rounds

namespace Goes

variable (c : Cache) (now : Int)

/-! ## Taking -/

theorem charge (source : ItemId) (size : Nat) :
    Goes (Rounds.charge c now source size) c (c.charge now source size).2 := by
  have hfirst := Steady.tryCharge c size
  rw [Rounds.charge, Cache.charge]
  generalize c.budget.tryCharge size = first at hfirst
  obtain ⟨_ | _, budget⟩ := first
  · have hround := Goes.after hfirst
      (single (t := .round now source size { c with budget := budget }) rfl)
    have hsecond := Steady.tryCharge (({ c with budget := budget } : Cache).makeSpace now source size) size
    simp only []
    generalize (({ c with budget := budget } : Cache).makeSpace now source size).budget.tryCharge size =
      second at hsecond
    obtain ⟨_ | _, budget'⟩ := second <;> exact hround.steady hsecond
  · exact hfirst.goes

theorem holdText (source : ItemId) (s : String) :
    Goes (Rounds.holdText c now source s) c (c.holdText now source s).2 := by
  have hcharge := charge c now source (StringPool.entryBytes s)
  rw [Rounds.holdText, Cache.holdText]
  cases c.strings.lookup? s with
  | some found => exact Steady.goes ⟨rfl, rfl, rfl, rfl, rfl, rfl⟩
  | none =>
    simp only []
    generalize c.charge now source (StringPool.entryBytes s) = charged at hcharge
    obtain ⟨e | ⟨⟨⟩⟩, c₁⟩ := charged
    · exact hcharge
    · exact hcharge.steady ⟨rfl, rfl, rfl, rfl, rfl, rfl⟩

theorem takeTexts (source : ItemId) (ss : List String) :
    Goes (Rounds.takeTexts now source ss c) c (Cache.takeTexts now source ss c).2 := by
  induction ss generalizing c with
  | nil => exact refl
  | cons s ss ih =>
    have htext := holdText c now source s
    rw [Rounds.takeTexts, Cache.takeTexts]
    generalize c.holdText now source s = held at htext
    obtain ⟨e | handle, c₁⟩ := held
    · exact htext.trans refl
    · have hrest := htext.trans (ih c₁)
      simp only [Rounds.andThen]
      generalize Cache.takeTexts now source ss c₁ = rest at hrest
      obtain ⟨e | ⟨⟨⟩⟩, c₂⟩ := rest
      · exact hrest.steady (.releaseText c₂ handle)
      · exact hrest

theorem holdValue (source : ItemId) (v : Value) :
    Goes (Rounds.holdValue c now source v) c (c.holdValue now source v).2 := by
  rw [holdValue_eq]
  cases v with
  | log entry =>
    have hcharge := charge c now source LogEntry.bytes
    rw [Rounds.holdValue, Cache.takeValue]
    generalize c.charge now source LogEntry.bytes = charged at hcharge
    obtain ⟨e | ⟨⟨⟩⟩, c₁⟩ := charged
    · exact hcharge.trans refl
    · have htexts := hcharge.trans (takeTexts c₁ now source (Value.log entry).texts)
      simp only [Rounds.andThen]
      generalize Cache.takeTexts now source (Value.log entry).texts c₁ = held at htexts
      obtain ⟨e | ⟨⟨⟩⟩, c₂⟩ := held
      · exact htexts.steady (.refund c₂ LogEntry.bytes)
      · exact htexts
  | float | str | uint | text => exact takeTexts c now source _

theorem create (id : ItemId) (kind : Kind) :
    Goes (Rounds.charge c now id Item.entryBytes) c (c.create now id kind).2 := by
  have hcharge := charge c now id Item.entryBytes
  rw [Cache.create]
  generalize c.charge now id Item.entryBytes = charged at hcharge
  obtain ⟨e | ⟨⟨⟩⟩, c₁⟩ := charged
  · exact hcharge
  · exact hcharge.steady ((Steady.checkIn c₁ id _).trans (.aside (.measure _ _)))

/-! ## Growing -/

theorem openOldest (id : ItemId) (waiting : List Record) (h : History) :
    Goes (Rounds.openOldest c now id waiting h) c (c.openOldest now id waiting h).2 := by
  rw [Rounds.openOldest, Cache.openOldest]
  by_cases hroom : h.hasRoom
  · rw [if_pos hroom, if_pos hroom]
    exact refl
  · have hcharge := charge c now id (Chunk.bytes (History.capacityFor (h.size + waiting.length)))
    rw [if_neg hroom, if_neg hroom]
    simp only []
    generalize c.charge now id (Chunk.bytes (History.capacityFor (h.size + waiting.length))) =
      charged at hcharge
    obtain ⟨e | ⟨⟨⟩⟩, c₁⟩ := charged <;> exact hcharge

theorem fill (id : ItemId) (records : List Record) (h : History) :
    Goes (Rounds.fill now id records h c) c (Cache.fill now id records h c).2.2 := by
  induction records generalizing h c with
  | nil => exact refl
  | cons r older ih =>
    have hopen := openOldest c now id (r :: older) h
    rw [Rounds.fill, Cache.fill]
    generalize c.openOldest now id (r :: older) h = opened at hopen
    obtain ⟨e | h₁, c₁⟩ := opened
    · exact hopen.trans refl
    · have hvalue := holdValue c₁ now id r.value
      simp only [Rounds.andThen]
      generalize c₁.holdValue now id r.value = held at hvalue
      obtain ⟨e | value, c₂⟩ := held
      · exact hopen.trans ((hvalue.steady (.release c₂ _)).trans refl)
      · exact hopen.trans (hvalue.trans (ih c₂ (h₁.pushOldest ⟨r.time, value⟩)))

theorem openNewest (id : ItemId) (h : History) :
    Goes (Rounds.openNewest c now id h) c (c.openNewest now id h).2 := by
  have hcharge := charge c now id (Chunk.bytes (History.capacityFor (h.size + 1)))
  rw [Rounds.openNewest, Cache.openNewest]
  cases h.reserve? with
  | some opened => exact refl
  | none =>
    simp only []
    generalize c.charge now id (Chunk.bytes (History.capacityFor (h.size + 1))) = charged at hcharge
    obtain ⟨e | ⟨⟨⟩⟩, c₁⟩ := charged <;> exact hcharge

theorem reserve (id : ItemId) (r : Record) (h : History) :
    Goes (Rounds.reserve c now id r h) c (c.reserve now id r h).2 := by
  have hvalue := holdValue c now id r.value
  rw [Rounds.reserve, Cache.reserve]
  generalize c.holdValue now id r.value = held at hvalue
  obtain ⟨e | value, c₁⟩ := held
  · exact hvalue.trans refl
  · have hopen := hvalue.trans (openNewest c₁ now id h)
    simp only [Rounds.andThen]
    generalize c₁.openNewest now id h = opened at hopen
    obtain ⟨e | opened, c₂⟩ := opened
    · exact hopen.steady (.releaseValue c₂ value)
    · exact hopen

theorem append (id : ItemId) (r : Record) (item : Item) :
    Goes (Rounds.reserve c now id r item.history) c (c.append now id r item).2.2 := by
  have hreserve := reserve c now id r item.history
  rw [Cache.append]
  generalize c.reserve now id r item.history = reserved at hreserve
  obtain ⟨e | ⟨kept, top, h⟩, c₁⟩ := reserved <;> exact hreserve

theorem insert (id : ItemId) (r : Record) (item : Item) :
    Goes (Rounds.insert c now id r item) c (c.insert now id r item).2.2 := by
  have hreserve := reserve c now id r item.history
  rw [Rounds.insert, Cache.insert]
  cases item.history.position? r.time with
  | none => exact refl
  | some after =>
    simp only []
    generalize c.reserve now id r item.history = reserved at hreserve
    obtain ⟨e | ⟨kept, top, h⟩, c₁⟩ := reserved
    · exact hreserve
    · simp only []
      split
      · exact hreserve
      · exact hreserve.steady (.releaseValue c₁ kept.value)

theorem write (id : ItemId) (r : Record) (item : Item) :
    Goes (Rounds.write c now id r item) c (c.write now id r item).2.2 := by
  have happend := append c now id r item
  rw [Rounds.write, Cache.write]
  cases item.history.newest? with
  | none =>
    simp only []
    split
    · exact refl
    · exact happend
  | some newest =>
    cases item.history.oldest? with
    | none => exact happend
    | some oldest =>
      simp only []
      split
      · exact happend
      · split
        · exact insert c now id r item
        · exact Steady.goes (.dropThrough c r.sec _)

/-! ## Operations -/

theorem offer (expireBefore : Int) (id : ItemId) (r : Record) (item : Item) :
    Goes (Rounds.offer c now expireBefore id r item) c
      (c.offer now expireBefore id r item).2.2 := by
  have hwrite := write c now id r item
  rw [Rounds.offer, Cache.offer]
  split
  · exact refl
  split
  · exact refl
  split
  · exact refl
  generalize c.write now id r item = written at hwrite
  obtain ⟨e | ⟨⟨⟩⟩, item', c₁⟩ := written
  · exact hwrite
  · simp only []
    split <;> exact hwrite

theorem ingestOne (expireBefore : Int) (w : ItemRecord) :
    Goes (Rounds.ingestOne now expireBefore c w) c (Cache.ingestOne now expireBefore c w) := by
  have hpin := Steady.pin c w.item
  rw [Rounds.ingestOne, Cache.ingestOne]
  simp only []
  cases (c.pin w.item).items[w.item]? with
  | none => exact hpin.goes
  | some item =>
    have hoffer := Goes.after (hpin.trans (.checkOut _ w.item))
      (offer ((c.pin w.item).checkOut w.item) now expireBefore w.item w.record item)
    simp only []
    refine steady ?_ (.unpin _ now w.item)
    generalize ((c.pin w.item).checkOut w.item).offer now expireBefore w.item w.record item =
      offered at hoffer
    obtain ⟨e | ⟨⟨⟩⟩, item', c₁⟩ := offered
    · exact hoffer.steady ((Steady.checkIn c₁ w.item _).trans (.log _ (by simp)))
    · exact hoffer.steady (.checkIn c₁ w.item _)

theorem ingest (writes : List ItemRecord) :
    Goes (Rounds.ingest c now writes) c (c.ingest now writes) := by
  rw [Rounds.ingest, Cache.ingest]
  generalize c.expireBefore now = expireBefore
  induction writes generalizing c with
  | nil => exact refl
  | cons w writes ih => exact (ingestOne c now expireBefore w).trans (ih _)

theorem ensure (q : Request) : Goes (Rounds.ensure c now q) c (c.ensure now q).2 := by
  have hcreate := create c now q.item q.kind
  rw [Rounds.ensure, Cache.ensure]
  split
  · exact refl
  split
  · exact refl
  generalize c.create now q.item q.kind = created at hcreate
  obtain ⟨e | ⟨⟨⟩⟩, c₁⟩ := created
  · exact hcreate.steady (.log c₁ (by simp))
  · exact hcreate

theorem extend (q : Request) (fill : Fill) (fetched : Fetched) :
    Goes (Rounds.extend c now q fill fetched) c (c.extend now q fill fetched).2 := by
  rw [Rounds.extend, Cache.extend]
  cases c.items[q.item]? with
  | none => exact refl
  | some item =>
    simp only []
    split
    · exact refl
    have hprepend := Goes.after (Steady.checkOut c q.item)
      (Goes.fill (c.checkOut q.item) now q.item (belowHistory item.history fetched.records) item.history)
    rw [Rounds.prepend, Cache.prepend]
    generalize Cache.fill now q.item (belowHistory item.history fetched.records) item.history
      (c.checkOut q.item) = filled at hprepend
    obtain ⟨e | ⟨⟨⟩⟩, h, c₁⟩ := filled <;> exact hprepend.steady (.checkIn c₁ q.item _)

theorem finishFill (q : Request) (fill : Fill) (result : Except StoreFailure Fetched) :
    Goes (Rounds.finishFill c now q fill result) c (c.finishFill now q fill result).2 := by
  cases result with
  | error e => exact Steady.goes (.giveUp c q _)
  | ok fetched =>
    have hextend := extend c now q fill fetched
    rw [Rounds.finishFill, Cache.finishFill]
    simp only []
    generalize c.extend now q fill fetched = extended at hextend
    obtain ⟨e | item, c₁⟩ := extended
    · exact hextend.steady (.giveUp c₁ q _)
    · exact hextend.steady (.answer c₁ now q _ _)

/-- A request finds the cache, and then makes the rounds of its admission. -/
theorem start (q : Request) :
    Goes (.request now c :: Rounds.ensure (c.greet now) now q) c (c.start now q).2 := by
  refine (single (t := .request now c) rfl).trans ?_
  rw [Cache.start, show (if c.mode = .lowMemory then c.warnLowMemory now else c) = c.greet now from rfl]
  show Goes _ (c.greet now) _
  generalize c.greet now = c₀
  have hensure := ensure c₀ now q
  simp only []
  generalize c₀.ensure now q = ensured at hensure
  obtain ⟨_ | _, c₁⟩ := ensured
  · exact hensure
  · have hpinned := hensure.steady (.pin c₁ q.item)
    simp only []
    cases (c₁.pin q.item).servable q with
    | error e => exact hpinned.steady (.giveUp _ q _)
    | ok item =>
      simp only []
      cases q.missing? item with
      | some fill => exact hpinned
      | none => exact hpinned.steady (.answer _ now q 0 item)

end Goes

end HistoryCache.Cache
