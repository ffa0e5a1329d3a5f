import Mathlib.Data.List.Induction
import TypedHole.Proofs.Scanning

/-! Lines and columns by a table of where the lines begin.
A place is looked up by halving the table, and a line is the stretch between two entries. Main statements: halving finds
the last entry that is not behind the place (`LineTable.bisect_eq`), and what the table says of places and lines is what
counting says (`LineTable.positions_counted`). -/
namespace TypedHole

def WholeLines (cs : List Char) : Prop := ∀ c ∈ cs.getLast?, c = '\n'

/-- The position behind some characters, by counting: the line breaks, and what stands behind the last of them. -/
def Position.Counts (p : Position) (pre : List Char) : Prop :=
  ∃ lines rest, pre = lines ++ rest ∧ WholeLines lines ∧ '\n' ∉ rest ∧
    p.line = 1 + pre.count '\n' ∧ p.column = 1 + rest.length

def Position.Before (p q : Position) : Prop := p.line < q.line ∨ p.line = q.line ∧ p.column < q.column

/-- A text with the offsets at which its lines begin. -/
structure LineTable where
  chars : List Char
  starts : List Nat

namespace LineTable

def startsFrom (offset : Nat) : List Char → List Nat
  | [] => []
  | c :: cs =>
    let rest := startsFrom (offset + c.utf8Size) cs
    if c = '\n' then (offset + c.utf8Size) :: rest else rest

def ofSource (s : Source) : LineTable := ⟨s.chars,0 :: startsFrom 0 s.chars⟩

/-- Halves a stretch of ascending numbers until one is left. The result is where a number stands, or as an error where
it would have to be put in. -/
def bisect (ns : List Nat) (x base size : Nat) : Except Nat Nat :=
  if 1 < size then
    let half := size / 2
    let mid := base + half
    if ns.getD mid 0 ≤ x then bisect ns x mid (size - half) else bisect ns x base (size - half)
  else if ns.getD base 0 = x then .ok base
  else .error (if ns.getD base 0 < x then base + 1 else base)
termination_by size

/-- The characters between two offsets, unless one of them is no place between characters. -/
def slice? (t : LineTable) (start stop : Nat) : Option (List Char) :=
  if start ≤ stop ∧ stop ≤ byteSize t.chars ∧ isBoundary start t.chars = true ∧ isBoundary stop t.chars = true then
    some ((charsBefore stop t.chars).drop (charsBefore start t.chars).length)
  else none

def lineAt (t : LineTable) (offset : Nat) : Nat :=
  match bisect t.starts offset 0 t.starts.length with
  | .ok i => i
  | .error i => i - 1

def position? (t : LineTable) (offset : Nat) : Option Position :=
  let stop := min offset (byteSize t.chars)
  let i := t.lineAt stop
  (t.slice? (t.starts.getD i 0) stop).map fun cs => ⟨i + 1,cs.length + 1⟩

/-- Where a line ends: before the line break that the next line begins behind, or at the end of the text. -/
def lineEnd (t : LineTable) (n : Nat) : Nat :=
  match t.starts[n]? with
  | some next =>
    if t.starts.getD (n - 1) 0 < next ∧ (t.chars.flatMap String.utf8EncodeChar)[next - 1]? = some 10 then next - 1
    else next
  | none => byteSize t.chars

def line? (t : LineTable) (n : Nat) : Option (List Char) :=
  if n = 0 ∨ t.starts.length < n then some [] else t.slice? (t.starts.getD (n - 1) 0) (t.lineEnd n)

/-! Offsets between characters. -/

variable {cs pre mid post : List Char} {n offset : Nat}

theorem exists_append_of_isBoundary (h : isBoundary n cs = true) :
    ∃ pre post, cs = pre ++ post ∧ n = byteSize pre := by
  induction cs generalizing n with
  | nil =>
    cases n with
    | zero => exact ⟨[],[],rfl,rfl⟩
    | succ n => cases h
  | cons c cs ih =>
    cases n with
    | zero => exact ⟨[],c :: cs,rfl,rfl⟩
    | succ n =>
      rw [isBoundary,Bool.and_eq_true,decide_eq_true_eq] at h
      obtain ⟨pre,post,rfl,hn⟩ := ih h.2
      exact ⟨c :: pre,post,rfl,by rw [byteSize_cons,← hn]; omega⟩

theorem charsBefore_of_le (h : byteSize cs ≤ n) : charsBefore n cs = cs := by
  induction cs generalizing n with
  | nil => cases n <;> rfl
  | cons c cs ih =>
    rw [byteSize_cons] at h
    rw [charsBefore,if_pos (by omega),ih (by omega)]

theorem charsBefore_min (n : Nat) (cs : List Char) : charsBefore (min n (byteSize cs)) cs = charsBefore n cs := by
  rcases Nat.le_total n (byteSize cs) with h | h
  · rw [Nat.min_eq_left h]
  · rw [Nat.min_eq_right h,charsBefore_of_le (Nat.le_refl _),charsBefore_of_le h]

theorem slice?_append (starts : List Nat) (pre mid post : List Char) :
    slice? ⟨pre ++ mid ++ post,starts⟩ (byteSize pre) (byteSize (pre ++ mid)) = some mid := by
  have hstart : isBoundary (byteSize pre) (pre ++ mid ++ post) = true := by simp
  have hstop : isBoundary (byteSize (pre ++ mid)) (pre ++ mid ++ post) = true := isBoundary_append ..
  have hbefore : charsBefore (byteSize pre) (pre ++ mid ++ post) = pre := by simp
  have hle : byteSize pre ≤ byteSize (pre ++ mid) ∧ byteSize (pre ++ mid) ≤ byteSize (pre ++ mid ++ post) := by simp
  rw [slice?,if_pos ⟨hle.1,hle.2,hstart,hstop⟩,hbefore,charsBefore_append,List.drop_left]

/-! The table. -/

theorem startsFrom_append (offset : Nat) (cs ds : List Char) :
    startsFrom offset (cs ++ ds) = startsFrom offset cs ++ startsFrom (offset + byteSize cs) ds := by
  induction cs generalizing offset with
  | nil => rfl
  | cons c cs ih =>
    simp only [List.cons_append,startsFrom,ih,byteSize_cons,Nat.add_assoc]
    split <;> rfl

theorem startsFrom_of_not_mem (h : '\n' ∉ cs) : startsFrom offset cs = [] := by
  induction cs generalizing offset with
  | nil => rfl
  | cons c cs ih =>
    rw [List.mem_cons,not_or] at h
    rw [startsFrom,if_neg (Ne.symm h.1),ih h.2]

theorem length_startsFrom (offset : Nat) (cs : List Char) : (startsFrom offset cs).length = cs.count '\n' := by
  induction cs generalizing offset with
  | nil => rfl
  | cons c cs ih =>
    by_cases hc : c = '\n' <;> simp [startsFrom,hc,ih]

theorem mem_startsFrom (h : n ∈ startsFrom offset cs) : offset < n ∧ n ≤ offset + byteSize cs := by
  induction cs generalizing offset with
  | nil => cases h
  | cons c cs ih =>
    have hpos := c.utf8Size_pos
    have hrest (h : n ∈ startsFrom (offset + c.utf8Size) cs) :
        offset < n ∧ n ≤ offset + byteSize (c :: cs) := by
      have := ih h
      rw [byteSize_cons]
      omega
    rw [startsFrom] at h
    split at h
    · rcases List.mem_cons.1 h with rfl | h
      · rw [byteSize_cons]
        omega
      · exact hrest h
    · exact hrest h

theorem getElem?_starts (h : WholeLines pre) (post : List Char) :
    (0 :: startsFrom 0 (pre ++ post))[pre.count '\n']? = some (byteSize pre) := by
  rcases List.eq_nil_or_concat pre with rfl | ⟨cs,c,rfl⟩
  · rfl
  · rw [List.concat_eq_append] at h ⊢
    obtain rfl : c = '\n' := h c (by simp)
    have hlast : startsFrom (byteSize cs) ['\n'] = [byteSize (cs ++ ['\n'])] := by simp [startsFrom]
    rw [startsFrom_append,startsFrom_append,Nat.zero_add,hlast,List.count_append,List.count_singleton_self,
      List.getElem?_cons_succ,List.append_assoc,List.getElem?_append_right (by rw [length_startsFrom]),
      length_startsFrom,Nat.sub_self]
    rfl

theorem getD_starts (h : WholeLines pre) (mid post : List Char) :
    (0 :: startsFrom 0 (pre ++ mid ++ post)).getD (pre.count '\n') 0 = byteSize pre := by
  rw [List.append_assoc,List.getD_eq_getElem?_getD,getElem?_starts h]
  rfl

theorem starts_append (pre : List Char) (hmid : '\n' ∉ mid) (post : List Char) :
    0 :: startsFrom 0 (pre ++ mid ++ post) = (0 :: startsFrom 0 pre) ++ startsFrom (byteSize (pre ++ mid)) post := by
  rw [startsFrom_append,startsFrom_append,startsFrom_of_not_mem hmid,List.append_nil,Nat.zero_add]
  rfl

theorem length_starts (cs : List Char) : (0 :: startsFrom 0 cs).length = 1 + cs.count '\n' := by
  rw [List.length_cons,length_startsFrom,Nat.add_comm]

/-- Entries up to that for the line at a place are not behind the place, and the entries after it are. -/
theorem starts_around (pre : List Char) (hmid : '\n' ∉ mid) (post : List Char) :
    (∀ i ≤ pre.count '\n', (0 :: startsFrom 0 (pre ++ mid ++ post)).getD i 0 ≤ byteSize (pre ++ mid)) ∧
    ∀ i, pre.count '\n' < i → i < (0 :: startsFrom 0 (pre ++ mid ++ post)).length →
      byteSize (pre ++ mid) < (0 :: startsFrom 0 (pre ++ mid ++ post)).getD i 0 := by
  have hlength := length_starts pre
  rw [starts_append pre hmid]
  refine ⟨fun i hi => ?_,fun i hi hlt => ?_⟩
  · rw [List.getD_eq_getElem?_getD,List.getElem?_append_left (by omega)]
    have hmem : ((0 :: startsFrom 0 pre)[i]?).getD 0 ∈ 0 :: startsFrom 0 pre := by
      rw [List.getElem?_eq_getElem (by omega)]
      exact List.getElem_mem _
    rcases List.mem_cons.1 hmem with h | h
    · omega
    · have := mem_startsFrom h
      simp only [byteSize_append]
      omega
  · rw [List.length_append] at hlt
    rw [List.getD_eq_getElem?_getD,List.getElem?_append_right (by omega),List.getElem?_eq_getElem (by omega)]
    exact (mem_startsFrom (List.getElem_mem _)).1

/-! Halving. -/

/-- Halving finds the last number that is not greater than the one looked for, if all before it are not greater and all
behind it are. -/
theorem bisect_eq {ns : List Nat} {x k base size : Nat} (hlow : ∀ i ≤ k, ns.getD i 0 ≤ x)
    (hhigh : ∀ i, k < i → i < ns.length → x < ns.getD i 0) (hbase : base ≤ k) (hk : k < base + size)
    (hsize : base + size ≤ ns.length) :
    bisect ns x base size = if ns.getD k 0 = x then .ok k else .error (k + 1) := by
  -- the index stays in the stretch, since the number in the middle tells on which side of it the index is
  fun_induction bisect ns x base size with
  | case1 base size hlt half mid hle ih =>
    have hmid : mid = base + size / 2 := rfl
    have hhalf : half = size / 2 := rfl
    have hmk : mid ≤ k := Nat.le_of_not_lt fun h => absurd (hhigh mid h (by omega)) (Nat.not_lt.2 hle)
    exact ih hmk (by omega) (by omega)
  | case2 base size hlt half mid hnle ih =>
    have hmid : mid = base + size / 2 := rfl
    have hhalf : half = size / 2 := rfl
    have hkm : k < mid := Nat.lt_of_not_le fun h => hnle (hlow mid h)
    exact ih hbase (by omega) (by omega)
  | case3 base size hlt heq =>
    obtain rfl : base = k := by omega
    rw [if_pos heq]
  | case4 base size hlt hne =>
    obtain rfl : base = k := by omega
    have hle := hlow base (Nat.le_refl _)
    rw [if_neg hne,if_pos (Nat.lt_of_le_of_ne hle hne)]

theorem lineAt_eq (pre : List Char) (hmid : '\n' ∉ mid) (post : List Char) :
    lineAt ⟨pre ++ mid ++ post,0 :: startsFrom 0 (pre ++ mid ++ post)⟩ (byteSize (pre ++ mid)) = pre.count '\n' := by
  obtain ⟨hlow,hhigh⟩ := starts_around pre hmid post
  have hlength := length_starts (pre ++ mid ++ post)
  have hfound := bisect_eq hlow hhigh (Nat.zero_le _)
    (by rw [hlength,List.count_append,List.count_append]; omega) (Nat.le_of_eq (Nat.zero_add _))
  rw [lineAt,hfound]
  split
  next i h =>
    split at h
    · exact (Except.ok.inj h).symm
    · cases h
  next i h =>
    split at h
    · cases h
    · rw [← Except.error.inj h,Nat.add_sub_cancel]

/-! Positions. -/

theorem exists_wholeLines (pre : List Char) : ∃ lines rest, pre = lines ++ rest ∧ WholeLines lines ∧ '\n' ∉ rest := by
  induction pre using List.reverseRecOn with
  | nil => exact ⟨[],[],rfl,nofun,nofun⟩
  | append_singleton pre c ih =>
    by_cases hc : c = '\n'
    · refine ⟨pre ++ [c],[],(List.append_nil _).symm,fun d hd => ?_,nofun⟩
      simpa [hc] using hd.symm
    · obtain ⟨lines,rest,rfl,hlines,hrest⟩ := ih
      refine ⟨lines,rest ++ [c],List.append_assoc ..,hlines,?_⟩
      simpa [hrest] using Ne.symm hc

theorem column_eq (hpre : WholeLines pre) (hmid : '\n' ∉ mid) :
    (positionAfter (pre ++ mid)).column = 1 + mid.length := by
  have hrun : pre.reverse.takeWhile (· ≠ '\n') = [] := by
    cases hrev : pre.reverse with
    | nil => rfl
    | cons c cs =>
      have hc := hpre c (by rw [← List.head?_reverse,hrev]; rfl)
      simp [hc]
  have hall : ∀ c ∈ mid.reverse, decide (c ≠ '\n') = true := by
    intro c hc
    exact decide_eq_true fun heq => hmid (heq ▸ List.mem_reverse.1 hc)
  rw [positionAfter,List.reverse_append,List.takeWhile_append_of_pos hall,hrun,List.append_nil,List.length_reverse]

theorem count_of_not_mem (pre : List Char) (hmid : '\n' ∉ mid) : (pre ++ mid).count '\n' = pre.count '\n' := by
  rw [List.count_append,List.count_eq_zero.2 hmid,Nat.add_zero]

theorem counts_positionAfter (pre : List Char) : (positionAfter pre).Counts pre := by
  obtain ⟨lines,rest,rfl,hlines,hrest⟩ := exists_wholeLines pre
  exact ⟨lines,rest,rfl,hlines,hrest,rfl,column_eq hlines hrest⟩

theorem before_positionAfter (pre : List Char) (h : mid ≠ []) :
    (positionAfter pre).Before (positionAfter (pre ++ mid)) := by
  by_cases hmid : '\n' ∈ mid
  · have hpos := List.count_pos_iff.2 hmid
    refine .inl ?_
    simp only [positionAfter,List.count_append]
    omega
  · obtain ⟨lines,rest,rfl,hlines,hrest⟩ := exists_wholeLines pre
    have hlong : '\n' ∉ rest ++ mid := fun hc => (List.mem_append.1 hc).elim hrest hmid
    refine .inr ⟨congrArg (1 + ·) (count_of_not_mem _ hmid).symm,?_⟩
    have hlength := List.length_pos_iff.2 h
    rw [column_eq hlines hrest,List.append_assoc,column_eq hlines hlong,List.length_append]
    omega

theorem position?_append {s : Source} (hs : s.chars = pre ++ post) (hoffset : min offset s.size = byteSize pre) :
    (ofSource s).position? offset = some (positionAfter pre) := by
  obtain ⟨lines,rest,rfl,hlines,hrest⟩ := exists_wholeLines pre
  have hline := lineAt_eq lines hrest post
  have hstart := getD_starts hlines rest post
  have hslice := slice?_append (0 :: startsFrom 0 (lines ++ rest ++ post)) lines rest post
  rw [Source.size,hs] at hoffset
  simp only [position?,ofSource,hs,hoffset,hline,hstart,hslice,Option.map_some]
  have hcolumn := column_eq hlines hrest
  have hcount : (positionAfter (lines ++ rest)).line = 1 + lines.count '\n' :=
    congrArg (1 + ·) (count_of_not_mem lines hrest)
  rw [← Nat.add_comm 1,← Nat.add_comm 1,← hcolumn,← hcount]

/-- The table answers as counting does, also where an offset is no place between characters. -/
theorem position?_ofSource (s : Source) (offset : Nat) : (ofSource s).position? offset = s.position? offset := by
  by_cases hb : isBoundary (min offset s.size) s.chars = true
  · obtain ⟨pre,post,hs,hoffset⟩ := exists_append_of_isBoundary hb
    have hbefore : charsBefore offset s.chars = pre := by
      rw [← charsBefore_min,← Source.size,hoffset,hs,charsBefore_append]
    rw [position?_append hs hoffset,Source.position?,if_pos hb,Source.position,hbefore]
  · have hnone : ∀ i, (ofSource s).slice? i (min offset s.size) = none := fun i =>
      if_neg fun h => hb h.2.2.2
    rw [Source.position?,if_neg hb,position?]
    exact congrArg _ (hnone _)

theorem position?_eq_some {s : Source} {p : Position} (h : s.position? offset = some p) :
    ∃ pre post, s.chars = pre ++ post ∧ min offset s.size = byteSize pre ∧ p = positionAfter pre := by
  have hb : isBoundary (min offset s.size) s.chars = true := by
    by_contra hb
    rw [Source.position?,if_neg hb] at h
    cases h
  obtain ⟨pre,post,hs,hoffset⟩ := exists_append_of_isBoundary hb
  rw [← position?_ofSource,position?_append hs hoffset] at h
  exact ⟨pre,post,hs,hoffset,(Option.some.inj h).symm⟩

theorem before_of_lt {s : Source} {m : Nat} {p q : Position} (hlt : m < n) (hn : n ≤ s.size)
    (hp : s.position? m = some p) (hq : s.position? n = some q) : p.Before q := by
  obtain ⟨pre,post,hs,hm,rfl⟩ := position?_eq_some hp
  obtain ⟨pre',post',hs',hn',rfl⟩ := position?_eq_some hq
  have hsize : byteSize pre < byteSize pre' := by omega
  rcases List.append_eq_append_iff.1 (hs.symm.trans hs') with ⟨mid,rfl,-⟩ | ⟨mid,rfl,-⟩
  · refine before_positionAfter pre ?_
    rintro rfl
    simp at hsize
  · rw [byteSize_append] at hsize
    omega

/-! Lines. -/

theorem splitLines_ne_nil (cs : List Char) : splitLines cs ≠ [] := by
  cases cs with
  | nil => nofun
  | cons c cs =>
    rw [splitLines]
    split <;> nofun

theorem splitLines_newline (cs : List Char) : splitLines ('\n' :: cs) = [] :: splitLines cs := by
  rw [splitLines]
  rfl

theorem splitLines_cons {c : Char} {line : List Char} {lines : List (List Char)} (hc : c ≠ '\n')
    (h : splitLines cs = line :: lines) : splitLines (c :: cs) = (c :: line) :: lines := by
  rw [splitLines,h,beq_false_of_ne hc]

theorem length_splitLines (cs : List Char) : (splitLines cs).length = 1 + cs.count '\n' := by
  induction cs with
  | nil => rfl
  | cons c cs ih =>
    by_cases hc : c = '\n'
    · rw [hc,splitLines_newline,List.length_cons,ih,List.count_cons_self,Nat.add_assoc]
    · obtain ⟨line,lines,h⟩ := List.exists_cons_of_ne_nil (splitLines_ne_nil cs)
      rw [h] at ih
      rw [splitLines_cons hc h,List.count_cons_of_ne hc,← ih]
      rfl

theorem not_mem_of_mem_splitLines {line : List Char} (h : line ∈ splitLines cs) : '\n' ∉ line := by
  induction cs generalizing line with
  | nil =>
    cases List.mem_singleton.1 h
    nofun
  | cons c cs ih =>
    by_cases hc : c = '\n'
    · rw [hc,splitLines_newline] at h
      rcases List.mem_cons.1 h with rfl | h
      · nofun
      · exact ih h
    · obtain ⟨first,lines,hcs⟩ := List.exists_cons_of_ne_nil (splitLines_ne_nil cs)
      rw [hcs] at ih
      rw [splitLines_cons hc hcs] at h
      rcases List.mem_cons.1 h with rfl | h
      · exact List.not_mem_cons_of_ne_of_not_mem (Ne.symm hc) (ih List.mem_cons_self)
      · exact ih (List.mem_cons_of_mem _ h)

theorem intercalate_splitLines (cs : List Char) : ['\n'].intercalate (splitLines cs) = cs := by
  induction cs with
  | nil => rfl
  | cons c cs ih =>
    obtain ⟨line,lines,h⟩ := List.exists_cons_of_ne_nil (splitLines_ne_nil cs)
    rw [h] at ih
    by_cases hc : c = '\n'
    · rw [hc,splitLines_newline,h,List.intercalate_cons_cons,ih]
      rfl
    · rw [splitLines_cons hc h]
      cases lines with
      | nil =>
        rw [List.intercalate_singleton] at ih ⊢
        rw [ih]
      | cons next lines =>
        rw [List.intercalate_cons_cons] at ih ⊢
        rw [List.cons_append,List.cons_append,ih]

theorem wholeLines_cons {c : Char} (h : WholeLines pre) (hc : pre = [] → c = '\n') : WholeLines (c :: pre) := by
  cases pre with
  | nil =>
    rintro d ⟨⟩
    exact hc rfl
  | cons d pre =>
    intro e he
    rw [List.getLast?_cons_cons] at he
    exact h e he

theorem eq_nil_of_wholeLines (h : WholeLines pre) (hcount : pre.count '\n' = 0) : pre = [] := by
  rcases List.eq_nil_or_concat pre with hnil | ⟨cs,c,rfl⟩
  · exact hnil
  · rw [List.concat_eq_append] at h hcount
    obtain rfl : c = '\n' := h c (by simp)
    simp at hcount

/-- A line stands behind as many whole lines as its number says, and a line break or the end follows. -/
theorem exists_of_splitLines {i : Nat} {line : List Char} (h : (splitLines cs)[i]? = some line) :
    ∃ pre rest, cs = pre ++ line ++ rest ∧ WholeLines pre ∧ pre.count '\n' = i ∧ ∀ c ∈ rest.head?, c = '\n' := by
  induction cs generalizing i line with
  | nil =>
    cases i with
    | zero =>
      cases h
      exact ⟨[],[],rfl,nofun,rfl,nofun⟩
    | succ i => cases h
  | cons c cs ih =>
    by_cases hc : c = '\n'
    · rw [hc,splitLines_newline] at h
      cases i with
      | zero =>
        cases h
        exact ⟨[],c :: cs,rfl,nofun,rfl,by rintro d ⟨⟩; exact hc⟩
      | succ i =>
        obtain ⟨pre,rest,rfl,hpre,hcount,hrest⟩ := ih h
        exact ⟨c :: pre,rest,rfl,wholeLines_cons hpre fun _ => hc,by rw [hc,List.count_cons_self,hcount],hrest⟩
    · obtain ⟨first,lines,hcs⟩ := List.exists_cons_of_ne_nil (splitLines_ne_nil cs)
      rw [splitLines_cons hc hcs] at h
      rw [hcs] at ih
      cases i with
      | zero =>
        cases h
        -- the character goes on the first line, before which there is nothing
        obtain ⟨pre,rest,heq,hpre,hcount,hrest⟩ := ih (i := 0) rfl
        cases eq_nil_of_wholeLines hpre hcount
        exact ⟨[],rest,by rw [heq]; rfl,nofun,rfl,hrest⟩
      | succ i =>
        obtain ⟨pre,rest,rfl,hpre,hcount,hrest⟩ := ih (i := i + 1) h
        have hne : pre ≠ [] := by
          rintro rfl
          cases hcount
        refine ⟨c :: pre,rest,rfl,wholeLines_cons hpre fun hnil => absurd hnil hne,?_,hrest⟩
        rw [List.count_cons_of_ne hc,hcount]

theorem length_utf8 (cs : List Char) : (cs.flatMap String.utf8EncodeChar).length = byteSize cs := by
  induction cs with
  | nil => rfl
  | cons c cs ih => rw [List.flatMap_cons,List.length_append,String.length_utf8EncodeChar,ih,byteSize_cons]

theorem byte_newline (pre post : List Char) :
    ((pre ++ '\n' :: post).flatMap String.utf8EncodeChar)[byteSize pre]? = some 10 := by
  rw [List.flatMap_append,List.getElem?_append_right (Nat.le_of_eq (length_utf8 pre)),length_utf8,Nat.sub_self]
  rfl

theorem lineEnd_eq {line rest : List Char} (hpre : WholeLines pre) (hline : '\n' ∉ line)
    (hrest : ∀ c ∈ rest.head?, c = '\n') :
    lineEnd ⟨pre ++ line ++ rest,0 :: startsFrom 0 (pre ++ line ++ rest)⟩ (pre.count '\n' + 1) =
      byteSize (pre ++ line) := by
  have hstart := getD_starts hpre line rest
  have hnext : (0 :: startsFrom 0 (pre ++ line ++ rest))[pre.count '\n' + 1]? =
      (startsFrom (byteSize (pre ++ line)) rest)[0]? := by
    have hlength := length_starts pre
    rw [starts_append pre hline,List.getElem?_append_right (by omega)]
    congr 1
    omega
  rw [lineEnd]
  simp only [hnext,hstart,Nat.add_sub_cancel]
  cases rest with
  | nil => simp [startsFrom]
  | cons c post =>
    obtain rfl : c = '\n' := hrest c rfl
    have hbyte := byte_newline (pre ++ line) post
    have hlt : byteSize pre < byteSize (pre ++ line) + 1 := by
      rw [byteSize_append]
      omega
    have hfirst : (startsFrom (byteSize (pre ++ line)) ('\n' :: post))[0]? = some (byteSize (pre ++ line) + 1) := rfl
    simp only [hfirst,Nat.add_sub_cancel]
    rw [if_pos ⟨hlt,hbyte⟩]

theorem line?_ofSource (s : Source) (n : Nat) : (ofSource s).line? n = some (s.line n).toList := by
  have hlength : (ofSource s).starts.length = (splitLines s.chars).length := by
    rw [length_splitLines]
    exact length_starts s.chars
  cases n with
  | zero => rfl
  | succ i =>
    rw [line?,hlength,Source.line,String.toList_ofList]
    cases hline : (splitLines s.chars)[i]? with
    | none => exact if_pos (.inr (Nat.lt_succ_of_le (List.getElem?_eq_none_iff.1 hline)))
    | some line =>
      have hlt : i < (splitLines s.chars).length := (List.getElem?_eq_some_iff.1 hline).1
      have hnewline := not_mem_of_mem_splitLines (List.mem_of_getElem? hline)
      obtain ⟨pre,rest,hs,hpre,hcount,hrest⟩ := exists_of_splitLines hline
      rw [if_neg (by omega),Nat.add_sub_cancel,ofSource,hs,← hcount,lineEnd_eq hpre hnewline hrest]
      simp only [getD_starts hpre line rest,slice?_append,Option.getD_some]

theorem map_line (s : Source) : (List.range' 1 (1 + s.chars.count '\n')).map (fun n => (s.line n).toList) =
    splitLines s.chars := by
  rw [← length_splitLines]
  refine List.ext_getElem (by simp) fun i hi hi' => ?_
  simp [Nat.add_comm 1 i,Source.line,hi']

theorem intercalate_line (s : Source) :
    "\n".intercalate ((List.range' 1 (1 + s.chars.count '\n')).map s.line) = s.text := by
  refine String.toList_injective ?_
  rw [String.toList_intercalate,List.map_map]
  exact (congrArg _ (map_line s)).trans (intercalate_splitLines s.chars)

theorem not_mem_line (s : Source) (n : Nat) : '\n' ∉ (s.line n).toList := by
  cases n with
  | zero => nofun
  | succ i =>
    rw [Source.line,String.toList_ofList]
    cases hline : (splitLines s.chars)[i]? with
    | none => nofun
    | some line => exact not_mem_of_mem_splitLines (List.mem_of_getElem? hline)

theorem line_eq_empty (s : Source) (h : n = 0 ∨ 1 + s.chars.count '\n' < n) : s.line n = "" := by
  cases n with
  | zero => rfl
  | succ i =>
    have hlong : (splitLines s.chars).length ≤ i := by
      rw [length_splitLines]
      omega
    rw [Source.line,List.getElem?_eq_none hlong]
    rfl

/-- A text has the position by counting at each place between characters, and at its end for any offset behind the end;
later places have later positions. Its lines with line breaks between them are the text, no line has a line break in
it, and other numbers than those of lines give an empty text. The table of where lines begin says the same. -/
theorem positions_counted (s : Source) :
    (∀ offset, (ofSource s).position? offset = s.position? offset) ∧
    (∀ pre post, s.chars = pre ++ post → ∀ offset, min offset s.size = byteSize pre →
      ∃ p, s.position? offset = some p ∧ p.Counts pre) ∧
    (∀ m n p q, m < n → n ≤ s.size → s.position? m = some p → s.position? n = some q → p.Before q) ∧
    (∀ n, (ofSource s).line? n = some (s.line n).toList) ∧
    "\n".intercalate ((List.range' 1 (1 + s.chars.count '\n')).map s.line) = s.text ∧
    (∀ n, '\n' ∉ (s.line n).toList) ∧
    ∀ n, n = 0 ∨ 1 + s.chars.count '\n' < n → s.line n = "" := by
  refine ⟨position?_ofSource s,fun pre post hs offset hoffset => ?_,fun m n p q hlt hn hp hq => ?_,line?_ofSource s,
    intercalate_line s,not_mem_line s,fun n => line_eq_empty s⟩
  · rw [← position?_ofSource,position?_append hs hoffset]
    exact ⟨_,rfl,counts_positionAfter pre⟩
  · exact before_of_lt hlt hn hp hq

/-- An empty line, characters of more than one byte, and a break at the end. -/
example : (List.range 6).map (ofSource ⟨0,"lines","é\n\nλ\n"⟩).position? =
    [some ⟨1,1⟩,none,some ⟨1,2⟩,some ⟨2,1⟩,some ⟨3,1⟩,none] := by
  decide +kernel

end LineTable
end TypedHole
