import OpenkalMusl.Descriptors.Listing

/-!
# Reading a directory again

A stream of musl reads the records that `getdents64` left in its buffer, and calls again where there
are none. `rewinddir` seeks its descriptor to the start, does not read what that answers, and drops
the buffer; of a directory the seek is refused, and the iterator stays where it was.

## Main definitions

* `Directory`, `Iteration`: the entries of a directory, and an iterator over them
* `DirStream`: a stream, over the listing of its description
* `DirStream.remaining`: what is still to be read from a stream

## Main results

* `readdir_spec`: a read yields the first of what is still to be read
* `reads_reach`: reading on yields all of it
* `rewind_kept_iff`: when the entries read after a rewinding are the whole listing
-/

namespace OpenkalMusl

/-- `SYS_lseek`; `moved` is what the environment answers where the description is of a file. -/
def PortState.lseek (w : PortState) (fd : Int) (moved : Except KalError ℕ) : Except Errno ℕ :=
  match w.okmDescOf fd with
  | none => .error .ebadf
  | some d =>
    match (w.desc d).kind with
    | .null => .ok 0
    | .file => moved.mapError okmErrno
    | _ => .error .espipe

/-- A directory has no position that is sought. -/
theorem PortState.lseek_directory {w : PortState} {fd : Int} {d : Fin okmMaxDesc}
    (hopen : w.okmDescOf fd = some d) (hdir : (w.desc d).kind = .dir) (moved : Except KalError ℕ) :
    w.lseek fd moved = .error .espipe := by
  unfold PortState.lseek
  rw [hopen]
  dsimp only
  rw [hdir]

/-- A directory, by the entries of it that can be recorded. -/
structure Directory where
  entries : List Entry
  short : ∀ x ∈ entries, x.name.length < nameField
  plain : ∀ x ∈ entries, '\x00' ∉ x.name

/-- What an iterator over a directory answers. -/
structure Iteration (dir : Directory) where
  answers : Option (List Yield)
  lists : nameable (answers.getD []) = dir.entries

/-! ## Streams -/

/-- The size of a stream's buffer. -/
def streamBuffer : ℕ := 2048

/-- `struct __dirstream`, with the listing of the description its descriptor names. The buffer is
the records that were last written in it. -/
structure DirStream where
  listing : Listing
  tell : ℕ := 0
  bufPos : ℕ := 0
  bufEnd : ℕ := 0
  records : List Placed := []
  deriving DecidableEq, Repr

/-- What `readdir` answers. No entry is `0`, which is answered for the end and for a failure; the
latter leaves its error in `errno`, unless it is that there is none such. -/
inductive ReadAnswer where
  | entry (record : Dirent)
  | ended
  | failed (e : Errno)
  deriving DecidableEq, Repr

/-- The name and the kind that are read. -/
def ReadAnswer.shown : ReadAnswer → List (Text × ℕ)
  | entry record => [(record.dName, record.dType)]
  | ended | failed _ => []

namespace DirStream

/-- The record at the position in the buffer. -/
def take (s : DirStream) : DirStream × ReadAnswer :=
  match s.records.find? fun r => r.start = s.bufPos with
  | none => (s, .ended)
  | some r =>
    ({ s with
        bufPos := s.bufPos + r.record.dReclen
        tell := r.record.dOff }, .entry r.record)

/-- `readdir`; `begun` is what beginning an iterator would answer. -/
def readdir (s : DirStream) (begun : Except KalError (Option (List Yield))) :
    DirStream × ReadAnswer :=
  if s.bufEnd ≤ s.bufPos then
    match s.listing.getdents begun streamBuffer with
    -- neither an error nor the end touches the buffer, so the next read calls again
    | (l, .error e, _) => ({ s with listing := l }, .failed e)
    | (l, .ok 0, _) => ({ s with listing := l }, .ended)
    | (l, .ok n, records) => { s with
        listing := l
        records := records
        bufEnd := n
        bufPos := 0 : DirStream }.take
  else s.take

/-- `rewinddir`; the seek of a directory is refused, and its answer not read. -/
def rewinddir (s : DirStream) : DirStream := { s with
  bufPos := 0
  bufEnd := 0
  tell := 0 }

/-- The records in the buffer that were not read. -/
def unread (s : DirStream) : List Placed :=
  if s.bufEnd ≤ s.bufPos then [] else s.records.filter fun r => s.bufPos ≤ r.start

/-- What the description has still to deliver. -/
def undelivered (dir : Directory) (s : DirStream) : List Entry :=
  if s.listing.iterOpen then s.listing.content else dir.entries

/-- What is still to be read. -/
def remaining (dir : Directory) (s : DirStream) : List (Text × ℕ) :=
  s.unread.map Placed.shown ++ (s.undelivered dir).map Entry.shown

/-- What holds of a stream between calls: its listing loses nothing, and what was not read of its
buffer follows on from the position in it. -/
structure Sound (s : DirStream) : Prop where
  listing : s.listing.Sound
  closed : s.listing.iterOpen = false → s.listing.iter = none
  buffered : s.bufEnd ≤ s.bufPos ∨ Tiles s.bufPos s.unread s.bufEnd

/-- What some reads yield. -/
def reads (s : DirStream) : List (Except KalError (Option (List Yield))) → List (Text × ℕ)
  | [] => []
  | begun :: rest => (s.readdir begun).2.shown ++ (s.readdir begun).1.reads rest

end DirStream

/-! ## One read -/

theorem tiles_le {start stop : ℕ} {rs : List Placed} (h : Tiles start rs stop) : start ≤ stop := by
  induction rs generalizing start with
  | nil => exact (show start = stop from h).le
  | cons r rs ih => exact (Nat.le_add_right _ _).trans (ih h.2.2.2)

/-- No record begins before the first. -/
theorem start_le_of_tiles {start stop : ℕ} {rs : List Placed} (h : Tiles start rs stop) :
    ∀ r ∈ rs, start ≤ r.start := by
  induction rs generalizing start with
  | nil => simp
  | cons q rs ih =>
    intro r hr
    rcases List.mem_cons.mp hr with rfl | hr
    · exact h.1.symm.le
    · exact (Nat.le_add_right _ _).trans (ih h.2.2.2 r hr)

/-- Records of which there are none take no room. -/
theorem eq_nil_of_tiles {stop : ℕ} {rs : List Placed} (h : Tiles stop rs stop) : rs = [] := by
  cases rs with
  | nil => rfl
  | cons r rs =>
    have hle := tiles_le h.2.2.2
    have hpos := h.2.2.1
    unfold direntName at hpos
    omega

/-- A call that has delivered something is not refused. -/
theorem getdentsLoop_ok {cap fuel used : ℕ} {l : Listing} {out : List Placed} (hused : 0 < used)
    (e : Errno) : (getdentsLoop cap fuel l used out).2.1 ≠ .error e := by
  induction fuel generalizing l used out with
  | zero => exact fun h => by cases h
  | succ fuel ih =>
    unfold getdentsLoop
    rcases l.next with ⟨l', turn⟩
    cases turn with
    | failed e' => simp [hused.ne']
    | spent => exact fun h => by cases h
    | skipped => exact ih hused
    | got x =>
      dsimp only
      by_cases hfit : used + recordSize x.name.length > cap
      · rw [if_pos hfit, if_neg hused.ne']
        exact fun h => by cases h
      · rw [if_neg hfit]
        exact ih (Nat.add_pos_left hused _)

/-- A buffer that holds every record is not too small. -/
theorem recordSize_le {n : ℕ} (h : n ≤ nameField) : recordSize n ≤ recordSize nameField := by
  unfold recordSize
  omega

/-- **A call that is refused** has read an answer of the iterator, if the buffer is not too
small. -/
theorem getdentsLoop_error {cap fuel : ℕ} {l : Listing} {out : List Placed} {e : Errno}
    (hcap : recordSize nameField ≤ cap) (hshort : ∀ x ∈ l.pending, x.name.length < nameField)
    (h : (getdentsLoop cap fuel l 0 out).2.1 = .error e) :
    ((getdentsLoop cap fuel l 0 out).1.iter.getD []).length < (l.iter.getD []).length := by
  -- an entry in hand fits, and once one is delivered nothing is refused
  have hgot : ∀ (fuel : ℕ) (l' : Listing) (x : Entry), x.name.length ≤ nameField →
      (if 0 + recordSize x.name.length > cap then
        (if l'.pending.isSome then l' else { l' with pending := some x },
          if (0 : ℕ) = 0 then Except.error Errno.einval else .ok 0, out)
      else
        getdentsLoop cap fuel { l' with pending := none } (0 + recordSize x.name.length)
          (out ++ [⟨0, direntAt 0 x⟩])).2.1 ≠ .error e := by
    intro fuel l' x hx
    have hfit := (recordSize_le hx).trans hcap
    rw [if_neg (by omega)]
    exact getdentsLoop_ok (Nat.add_pos_right 0 (recordSize_pos _)) e
  induction fuel generalizing l with
  | zero => cases h
  | succ fuel ih =>
    unfold getdentsLoop at h ⊢
    cases hp : l.pending with
    | some x =>
      have hx : (cString x.name).length ≤ nameField :=
        (List.takeWhile_prefix _).length_le.trans (hshort x hp).le
      have hnext : l.next = (l, .got ⟨cString x.name, x.kind⟩) := by simp [Listing.next, hp]
      rw [hnext] at h
      exact absurd h (hgot fuel l ⟨cString x.name, x.kind⟩ hx)
    | none =>
      rcases hi : l.iter with _ | _ | ⟨y, rest⟩
      · simp [Listing.next, hp, hi] at h
      · simp [Listing.next, hp, hi] at h
      cases y with
      | failed e' => simp [Listing.next, hp, hi]
      | entry x =>
        by_cases hx : x.name.length ≥ nameField
        · simp only [Listing.next, hp, hi, if_pos hx] at h ⊢
          have hlt := ih (by simp) h
          simp only [Option.getD_some, List.length_cons] at hlt ⊢
          omega
        · have hnext : l.next = ({ l with iter := some rest }, .got x) := by
            simp [Listing.next, hp, hi, not_le.mp hx]
          rw [hnext] at h
          exact absurd h (hgot fuel _ x (not_le.mp hx).le)

namespace DirStream

variable {dir : Directory} {s : DirStream}

/-- **The record at the position** is the first that was not read. -/
theorem take_spec (hlt : s.bufPos < s.bufEnd) (h : Tiles s.bufPos s.unread s.bufEnd) :
    ∃ r, s.take.2 = .entry r.record ∧ s.unread = r :: s.take.1.unread ∧
      s.take.1.listing = s.listing ∧
      (s.take.1.bufEnd ≤ s.take.1.bufPos ∨
        Tiles s.take.1.bufPos s.take.1.unread s.take.1.bufEnd) := by
  have hunread : s.unread = s.records.filter fun r => s.bufPos ≤ r.start :=
    if_neg (not_le.mpr hlt)
  cases hrest : s.unread with
  | nil =>
    rw [hrest] at h
    exact absurd (show s.bufPos = s.bufEnd from h) hlt.ne
  | cons r rest =>
    rw [hrest] at h
    obtain ⟨hstart, -, hname, htiles⟩ := h
    have hpos : 0 < r.record.dReclen := by
      unfold direntName at hname
      omega
    -- the first that was not read is found, since none before it begins there
    have hfind : s.records.find? (fun r => r.start = s.bufPos) = some r := by
      have hfilter : (s.records.filter fun r => s.bufPos ≤ r.start).find?
          (fun r => decide (r.start = s.bufPos)) = s.records.find? fun r => r.start = s.bufPos := by
        rw [List.find?_filter]
        congr 1
        funext q
        by_cases hq : q.start = s.bufPos
        · simp [hq]
        · simp [hq]
      rw [← hfilter, ← hunread, hrest]
      exact List.find?_cons_of_pos (by simpa using hstart)
    have htake : s.take = ({ s with
        bufPos := s.bufPos + r.record.dReclen
        tell := r.record.dOff }, .entry r.record) := by
      unfold take
      rw [hfind]
    have hafter : s.take.1.unread = rest := by
      rw [htake]
      unfold unread
      dsimp only
      by_cases hend : s.bufEnd ≤ s.bufPos + r.record.dReclen
      · rw [if_pos hend]
        rw [le_antisymm (tiles_le htiles) hend] at htiles
        exact (eq_nil_of_tiles htiles).symm
      · rw [if_neg hend]
        have hsplit : (s.records.filter fun q => s.bufPos + r.record.dReclen ≤ q.start) =
            (s.unread.filter fun q => s.bufPos + r.record.dReclen ≤ q.start) := by
          rw [hunread, List.filter_filter]
          congr 1
          funext q
          by_cases hq : s.bufPos + r.record.dReclen ≤ q.start
          · simp [hq, (Nat.le_add_right _ _).trans hq]
          · simp [hq]
        rw [hsplit, hrest, List.filter_cons_of_neg (by simp; omega)]
        exact List.filter_eq_self.mpr fun q hq => by simpa using start_le_of_tiles htiles q hq
    refine ⟨r, by rw [htake], by rw [hafter], by rw [htake], Or.inr ?_⟩
    rw [hafter, htake]
    exact htiles

/-- What a call is made of: the listing, begun if it was not. -/
theorem getdents_delivers (h : s.Sound) (it : Iteration dir) :
    ∃ l : Listing, l.iterOpen = true ∧ l.content = s.undelivered dir ∧
      l.iter = (if s.listing.iterOpen then s.listing.iter else it.answers) ∧
      s.listing.getdents (.ok it.answers) streamBuffer =
        (if l.iter = none then (l, .ok 0, []) else getdentsLoop streamBuffer l.turns l 0 []) ∧
      l.Sound := by
  cases hopen : s.listing.iterOpen with
  | true =>
    -- the iterator goes on from where it is
    refine ⟨s.listing, hopen, ?_, rfl, ?_, h.listing⟩
    · simp [undelivered, hopen]
    · simp [Listing.getdents, hopen]
  | false =>
    -- one is begun, and nothing of an earlier one is pending
    have hpending := h.listing.spent (h.closed hopen)
    have hcontent : ({ s.listing with iter := it.answers, iterOpen := true } : Listing).content =
        dir.entries := by
      rw [← it.lists]
      simp [Listing.content, hpending]
    refine ⟨{ s.listing with iter := it.answers, iterOpen := true }, rfl, ?_, rfl, ?_, ?_⟩
    · rw [hcontent]
      simp [undelivered, hopen]
    · simp [Listing.getdents, hopen, Except.map]
    · refine ⟨fun _ => hpending, ?_, ?_⟩
      · rw [hcontent]
        exact dir.plain
      · rw [hcontent]
        exact dir.short

theorem undelivered_of_open {l : Listing} (h : l.iterOpen = true) (hl : s.listing = l) :
    s.undelivered dir = l.content := by
  unfold undelivered
  rw [hl, if_pos h]

/-- A read of a record in the buffer. -/
theorem take_reads (h : s.Sound) (hlt : s.bufPos < s.bufEnd) :
    s.take.1.Sound ∧ s.remaining dir = s.take.2.shown ++ s.take.1.remaining dir := by
  obtain ⟨r, hans, hunread, hlisting, hbuffered⟩ :=
    take_spec hlt (h.buffered.resolve_left (not_le.mpr hlt))
  refine ⟨⟨by rw [hlisting]; exact h.listing, by rw [hlisting]; exact h.closed, hbuffered⟩, ?_⟩
  have hrest : s.take.1.undelivered dir = s.undelivered dir := by
    unfold undelivered
    rw [hlisting]
  rw [remaining, remaining, hunread, hans, hrest]
  rfl

/-- The stream after a call that wrote nothing in the buffer. -/
theorem kept_of_listing (h : s.Sound) {l l' : Listing} (hl' : l'.Sound)
    (hopen : l'.iterOpen = true) (hcontent : l.content = s.undelivered dir)
    (heq : l'.content.map Entry.shown = l.content.map Entry.shown) :
    ({ s with listing := l' } : DirStream).Sound ∧
      s.remaining dir = ({ s with listing := l' } : DirStream).remaining dir := by
  refine ⟨⟨hl', fun hc => ?_, h.buffered⟩, ?_⟩
  · rw [hopen] at hc
    cases hc
  · have hrest : ({ s with listing := l' } : DirStream).undelivered dir = l'.content :=
      undelivered_of_open hopen rfl
    rw [remaining, remaining, hrest, heq, hcontent]
    rfl

/-- **A read** yields the first of what is still to be read, or nothing. -/
theorem readdir_spec (h : s.Sound) (begun : Except KalError (Iteration dir)) :
    (s.readdir (begun.map Iteration.answers)).1.Sound ∧
      s.remaining dir = (s.readdir (begun.map Iteration.answers)).2.shown ++
        (s.readdir (begun.map Iteration.answers)).1.remaining dir := by
  by_cases hnil : s.bufEnd ≤ s.bufPos
  · -- the buffer is read: a call of `getdents64`
    have hcall : (∃ e, s.listing.getdents (begun.map Iteration.answers) streamBuffer =
          (s.listing, .error e, [])) ∨
        ∃ l : Listing, l.iterOpen = true ∧ l.content = s.undelivered dir ∧
          Delivers l [] streamBuffer
            (s.listing.getdents (begun.map Iteration.answers) streamBuffer) := by
      cases begun with
      | ok it =>
        obtain ⟨l, hopen, hcontent, -, hget, hl⟩ := getdents_delivers h it
        exact Or.inr ⟨l, hopen, hcontent, by rw [Except.map, hget]; exact hl.delivers _⟩
      | error e =>
        cases hopen : s.listing.iterOpen with
        | true =>
          refine Or.inr ⟨s.listing, hopen, (undelivered_of_open hopen rfl).symm, ?_⟩
          simpa [Listing.getdents, hopen] using h.listing.delivers streamBuffer
        | false => exact Or.inl ⟨okmErrno e, by simp [Listing.getdents, hopen, Except.map]⟩
    unfold readdir
    rw [if_pos hnil]
    rcases hcall with ⟨e, hget⟩ | ⟨l, hopen, hcontent, hdel⟩
    · rw [hget]
      exact ⟨h, rfl⟩
    · generalize s.listing.getdents (begun.map Iteration.answers) streamBuffer = r at hdel
      obtain ⟨l', result, records⟩ := r
      have hopen' : l'.iterOpen = true := hdel.iterOpen.trans hopen
      have hshown := hdel.content
      simp only [List.map_nil, List.nil_append] at hshown
      rcases result with e | _ | n
      · obtain rfl : records = [] := hdel.refused e rfl
        exact kept_of_listing h hdel.sound hopen' hcontent (by simpa using hshown)
      · obtain rfl : records = [] := eq_nil_of_tiles (hdel.tiles 0 rfl).1
        exact kept_of_listing h hdel.sound hopen' hcontent (by simpa using hshown)
      · -- the records are in the buffer, and the first of them is read
        generalize hs' : ({ s with
          listing := l'
          records := records
          bufEnd := n + 1
          bufPos := 0 } : DirStream) = s'
        have hunread : s'.unread = records := by
          subst hs'
          simp [unread]
        have hsound : s'.Sound := by
          refine ⟨?_, ?_, Or.inr ?_⟩
          · subst hs'
            exact hdel.sound
          · subst hs'
            intro hc
            rw [hopen'] at hc
            cases hc
          · rw [hunread]
            subst hs'
            exact (hdel.tiles _ rfl).1
        have hremaining : s.remaining dir = s'.remaining dir := by
          have hrest : s'.undelivered dir = l'.content := undelivered_of_open hopen' (by rw [← hs'])
          rw [remaining, remaining, hunread, hrest, hshown, hcontent, unread, if_pos hnil]
          rfl
        rw [hremaining]
        subst hs'
        exact take_reads hsound (Nat.succ_pos n)
  · unfold readdir
    rw [if_neg hnil]
    exact take_reads h (not_le.mp hnil)

/-- **Some reads** yield the start of what is still to be read. -/
theorem reads_prefix (h : s.Sound) (begun : List (Except KalError (Iteration dir))) :
    s.reads (begun.map (Except.map Iteration.answers)) <+: s.remaining dir := by
  induction begun generalizing s with
  | nil => exact List.nil_prefix
  | cons b begun ih =>
    obtain ⟨hsound, hremaining⟩ := readdir_spec h b
    rw [List.map_cons, reads, hremaining]
    exact List.prefix_append_right_inj _ |>.mpr (ih hsound)

/-! ## Reading on -/

/-- The answers of the iterator that were not read. -/
def answersLeft (it : Iteration dir) (s : DirStream) : ℕ :=
  ((if s.listing.iterOpen then s.listing.iter else it.answers).getD []).length

theorem take_listing (s : DirStream) : s.take.1.listing = s.listing := by
  unfold take
  split <;> rfl

theorem answersLeft_of_open {it : Iteration dir} {l : Listing} (h : l.iterOpen = true)
    (hl : s.listing = l) : s.answersLeft it = (l.iter.getD []).length := by
  unfold answersLeft
  rw [hl, if_pos h]

/-- What a read comes to: an entry, the end where nothing is still to be read, or a failure, which
the iterator answers once. -/
theorem readdir_cases (h : s.Sound) (it : Iteration dir) :
    ((∃ r, (s.readdir (.ok it.answers)).2 = .entry r) ∧
        (s.readdir (.ok it.answers)).1.answersLeft it ≤ s.answersLeft it) ∨
      s.remaining dir = [] ∨
      (∃ e, (s.readdir (.ok it.answers)).2 = .failed e) ∧
        (s.readdir (.ok it.answers)).1.answersLeft it < s.answersLeft it := by
  by_cases hnil : s.bufEnd ≤ s.bufPos
  · obtain ⟨l, hopen, hcontent, hiter, hget, hl⟩ := getdents_delivers h it
    have hdel : Delivers l [] streamBuffer (s.listing.getdents (.ok it.answers) streamBuffer) := by
      rw [hget]
      exact hl.delivers _
    have hleft : s.answersLeft it = (l.iter.getD []).length := by rw [answersLeft, hiter]
    -- a refusal is a failure of the iterator, the buffer being large enough
    have hfails : ∀ e, (s.listing.getdents (.ok it.answers) streamBuffer).2.1 = .error e →
        ((s.listing.getdents (.ok it.answers) streamBuffer).1.iter.getD []).length <
          (l.iter.getD []).length := by
      intro e he
      rw [hget] at he ⊢
      by_cases hnone : l.iter = none
      · rw [if_pos hnone] at he
        cases he
      · rw [if_neg hnone] at he ⊢
        refine getdentsLoop_error (by decide) (fun x hx => hl.short x ?_) he
        exact List.mem_append_left _ (by simpa using hx)
    unfold readdir
    rw [if_pos hnil]
    generalize s.listing.getdents (.ok it.answers) streamBuffer = r at hdel hfails
    obtain ⟨l', result, records⟩ := r
    have hopen' : l'.iterOpen = true := hdel.iterOpen.trans hopen
    have hle : (l'.iter.getD []).length ≤ (l.iter.getD []).length := hdel.suffix.length_le
    match result with
    | .error e =>
      refine Or.inr (Or.inr ⟨⟨e, rfl⟩, ?_⟩)
      rw [answersLeft_of_open hopen' rfl, hleft]
      exact hfails e rfl
    | .ok 0 =>
      refine Or.inr (Or.inl ?_)
      have hend : l'.iter = none := hdel.ended rfl
      have hpending : l'.pending = none := hdel.sound.spent hend
      have hempty : l'.content = [] := by simp [Listing.content, hpending, hend, nameable]
      have hshown : records.map Placed.shown ++ l'.content.map Entry.shown =
          l.content.map Entry.shown := hdel.content
      have hnone : records = [] := eq_nil_of_tiles (hdel.tiles 0 rfl).1
      rw [hnone, hempty] at hshown
      rw [remaining, unread, if_pos hnil, ← hcontent, ← hshown]
      rfl
    | .ok (n + 1) =>
      generalize hs' : ({ s with
        listing := l'
        records := records
        bufEnd := n + 1
        bufPos := 0 } : DirStream) = s'
      have hunread : s'.unread = records := by
        subst hs'
        simp [unread]
      have htiles : Tiles s'.bufPos s'.unread s'.bufEnd := by
        rw [hunread]
        subst hs'
        exact (hdel.tiles _ rfl).1
      subst hs'
      obtain ⟨r, hans, -⟩ := take_spec (Nat.succ_pos n) htiles
      refine Or.inl ⟨⟨r.record, hans⟩, ?_⟩
      rw [hleft]
      refine (answersLeft_of_open hopen' ?_).le.trans hle
      exact take_listing _
  · obtain ⟨r, hans, -⟩ := take_spec (not_le.mp hnil) (h.buffered.resolve_left hnil)
    unfold readdir
    rw [if_neg hnil]
    refine Or.inl ⟨⟨r.record, hans⟩, ?_⟩
    unfold answersLeft
    rw [take_listing]

/-- **Reading on** yields all that is still to be read. -/
theorem reads_reach (h : s.Sound) (it : Iteration dir) :
    ∃ n, ∀ k, n ≤ k → s.reads (List.replicate k (.ok it.answers)) = s.remaining dir := by
  -- a read leaves less to be read, or fewer answers of the iterator
  generalize hm : (s.remaining dir).length + s.answersLeft it = m
  induction m using Nat.strong_induction_on generalizing s with
  | _ m ih =>
    by_cases hdone : s.remaining dir = []
    · refine ⟨0, fun k _ => ?_⟩
      have hprefix := reads_prefix h (List.replicate k (.ok it))
      rw [hdone, List.map_replicate] at hprefix
      rw [hdone]
      exact List.prefix_nil.mp hprefix
    · obtain ⟨hsound, hremaining⟩ := readdir_spec h (.ok it)
      simp only [Except.map] at hsound hremaining
      have hless : ((s.readdir (.ok it.answers)).1.remaining dir).length +
          (s.readdir (.ok it.answers)).1.answersLeft it < m := by
        have hlength := congrArg List.length hremaining
        rw [List.length_append] at hlength
        rcases readdir_cases h it with ⟨⟨r, hr⟩, hle⟩ | hnil | ⟨⟨e, he⟩, hlt⟩
        · rw [hr] at hlength
          simp only [ReadAnswer.shown, List.length_singleton] at hlength
          omega
        · exact absurd hnil hdone
        · omega
      obtain ⟨n, hn⟩ := ih _ hless hsound rfl
      refine ⟨n + 1, fun k hk => ?_⟩
      obtain ⟨k, rfl⟩ : ∃ j, k = j + 1 := ⟨k - 1, by omega⟩
      rw [List.replicate_succ, reads, hn k (by omega), ← hremaining]

/-- A rewound stream has nothing in its buffer, and its description what it had. -/
theorem rewinddir_remaining (s : DirStream) :
    s.rewinddir.remaining dir = (s.undelivered dir).map Entry.shown := by
  have hunread : s.rewinddir.unread = [] := rfl
  rw [remaining, hunread]
  rfl

theorem Sound.rewinddir (h : s.Sound) : s.rewinddir.Sound :=
  ⟨h.listing, h.closed, Or.inl (le_refl 0)⟩

end DirStream

/-! ## Runs of a stream -/

/-- A call upon a stream; a read comes with what beginning an iterator would answer. -/
inductive StreamCall (dir : Directory) where
  | readdir (begun : Except KalError (Iteration dir))
  | rewinddir

namespace DirStream

variable {dir : Directory} {s : DirStream}

def step (s : DirStream) : StreamCall dir → DirStream
  | .readdir begun => (s.readdir (begun.map Iteration.answers)).1
  | .rewinddir => s.rewinddir

/-- A stream after some calls. -/
def after (s : DirStream) (calls : List (StreamCall dir)) : DirStream := calls.foldl step s

theorem Sound.step (h : s.Sound) (c : StreamCall dir) : (s.step c).Sound := by
  cases c with
  | readdir begun => exact (readdir_spec h begun).1
  | rewinddir => exact h.rewinddir

/-- **Calls keep a stream sound.** -/
theorem Sound.after (h : s.Sound) (calls : List (StreamCall dir)) : (s.after calls).Sound := by
  induction calls generalizing s with
  | nil => exact h
  | cons c calls ih => exact ih (h.step c)

/-- A stream that is opened over a listing, wherever its enumeration has come to. -/
theorem sound_of_kept {given : List Yield} {l : Listing} {answers : List Answered}
    (h : Kept given l answers) : ({ listing := l } : DirStream).Sound :=
  ⟨h.sound, fun hc => (h.closed hc).1, Or.inl (le_refl 0)⟩

/-- Nothing has been taken of the iterator: it was not begun, or has the whole directory still to
yield. -/
def Untaken (dir : Directory) (s : DirStream) : Prop :=
  (s.undelivered dir).map Entry.shown = dir.entries.map Entry.shown

end DirStream

/-- **What is promised of a rewinding**: what is read after it begins as the listing of the
directory does, and reading on comes to the whole of it. -/
structure RewindKept (dir : Directory) (s : DirStream) : Prop where
  begins : ∀ begun : List (Except KalError (Iteration dir)),
    s.rewinddir.reads (begun.map (Except.map Iteration.answers)) <+: dir.entries.map Entry.shown
  whole : ∀ it : Iteration dir, ∃ n, ∀ k, n ≤ k →
    s.rewinddir.reads (List.replicate k (.ok it.answers)) = dir.entries.map Entry.shown

open DirStream

/-- An iterator over a directory that answers its entries. -/
def Directory.iteration (dir : Directory) : Iteration dir where
  answers := some (dir.entries.map .entry)
  lists := by
    have hall : ∀ entries : List Entry, (∀ x ∈ entries, x.name.length < nameField) →
        nameable (entries.map .entry) = entries := by
      intro entries hshort
      induction entries with
      | nil => rfl
      | cons x entries ih =>
        rw [List.map_cons, nameable, if_neg (not_le.mpr (hshort x List.mem_cons_self)),
          ih fun y hy => hshort y (List.mem_cons_of_mem _ hy)]
    exact hall dir.entries dir.short

/-- **When the entries read after a rewinding are the whole listing**: after every sequence of
calls upon a stream, exactly where nothing has been taken of the iterator. -/
theorem rewind_kept_iff (dir : Directory) {s₀ : DirStream} (h₀ : s₀.Sound)
    (calls : List (StreamCall dir)) :
    RewindKept dir (s₀.after calls) ↔ Untaken dir (s₀.after calls) := by
  have hsound := (h₀.after calls).rewinddir
  generalize s₀.after calls = s at hsound
  constructor
  · -- enough reads reach both the end of the listing and the end of what remains
    intro hkept
    obtain ⟨n, hn⟩ := hkept.whole dir.iteration
    obtain ⟨m, hm⟩ := reads_reach hsound dir.iteration
    rw [Untaken, ← rewinddir_remaining, ← hm (n + m) (Nat.le_add_left _ _),
      hn (n + m) (Nat.le_add_right _ _)]
  · intro huntaken
    have hall : s.rewinddir.remaining dir = dir.entries.map Entry.shown := by
      rw [rewinddir_remaining]
      exact huntaken
    refine ⟨fun begun => ?_, fun it => ?_⟩
    · rw [← hall]
      exact reads_prefix hsound begun
    · rw [← hall]
      exact reads_reach hsound it

/-- A directory of one file. -/
def oneEntry : Directory where
  entries := [⟨['a'], .file⟩]
  short := by simp [nameField]
  plain := by simp

/-- A stream of which a read was refused, and that was rewound before its iterator yielded. -/
theorem rewind_kept_iff_opened :
    RewindKept oneEntry (({ listing := {} } : DirStream).after
      ([.readdir (.error .io), .rewinddir] : List (StreamCall oneEntry))) :=
  (rewind_kept_iff oneEntry (sound_of_kept kept_fresh) [.readdir (.error .io), .rewinddir]).mpr
    (show (_ : List (Text × ℕ)) = _ by decide +kernel)

/-- After one read and a rewinding the file is not read again. -/
theorem rewind_reads_nothing :
    ¬ ∀ (dir : Directory) (s₀ : DirStream), s₀.Sound → ∀ calls : List (StreamCall dir),
      RewindKept dir (s₀.after calls) := by
  intro hall
  have hkept := hall oneEntry { listing := {} } (sound_of_kept kept_fresh)
    [.readdir (.ok oneEntry.iteration)]
  obtain ⟨n, hn⟩ := hkept.whole oneEntry.iteration
  have hsound : (({ listing := {} } : DirStream).after
      [StreamCall.readdir (.ok oneEntry.iteration)]).rewinddir.Sound :=
    ((sound_of_kept kept_fresh).after _).rewinddir
  have hprefix := reads_prefix hsound (List.replicate n (.ok oneEntry.iteration))
  -- the one read filled the buffer with the whole listing, and rewinding empties it
  have hempty : (({ listing := {} } : DirStream).after
      [StreamCall.readdir (.ok oneEntry.iteration)]).rewinddir.remaining oneEntry = [] := by
    decide +kernel
  rw [hempty, List.map_replicate] at hprefix
  have hread := hn n (le_refl n)
  cases hread.symm.trans (List.prefix_nil.mp hprefix)

end OpenkalMusl
