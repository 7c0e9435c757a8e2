import Mathlib.Data.List.Pairwise
import Xv6.Malloc

/-! What free, morecore and malloc do to the list of free blocks. -/
namespace Xv6.Malloc
open Intervals

section Join
variable {m : Mem} {bp base p t : Nat} {left right rest : List Block}

theorem setPtr_self (m : Mem) (a v : Nat) : (m.setPtr a v).ptr a = v := Function.update_self ..

theorem setPtr_other {a x : Nat} (other : x ≠ a) (v : Nat) : (m.setPtr a v).ptr x = m.ptr x :=
  Function.update_of_ne other ..

theorem setSize_self (m : Mem) (a v : Nat) : (m.setSize a v).size a = v := Function.update_self ..

theorem setSize_other {a x : Nat} (other : x ≠ a) (v : Nat) :
    (m.setSize a v).size x = m.size x := Function.update_of_ne other ..

theorem joinNext_path (path : Path m p right base) (low : base < bp)
    (rights : ∀ x ∈ right.map Prod.fst, bp < x)
    (small : (mergeRight header (bp, m.size bp) right).1.2 < 2 ^ 32) :
    Path (joinNext m bp p) bp (mergeRight header (bp, m.size bp) right).2 base ∧
      (joinNext m bp p).size bp = (mergeRight header (bp, m.size bp) right).1.2 ∧
      ∀ x, x ≠ bp → (joinNext m bp p).ptr x = m.ptr x ∧ (joinNext m bp p).size x = m.size x := by
  have others : ∀ x ∈ right.map Prod.fst, x ≠ bp := fun x inside => by
    have above := rights x inside
    omega
  unfold joinNext
  cases right with
  | nil =>
    have ends : m.ptr p = base := path.2
    have apart : ¬ bp + m.size bp * header = m.ptr p := by
      rw [ends]
      omega
    rw [if_neg apart]
    refine ⟨⟨trivial, ?_⟩, rfl, fun x other => ⟨setPtr_other other _, rfl⟩⟩
    exact (setPtr_self ..).trans ends
  | cons r after =>
    obtain ⟨first, size, tail⟩ := path_cons.mp path
    have notBp := others r.1 List.mem_cons_self
    have unchanged : ∀ v, ∀ x ∈ after.map Prod.fst, (m.setPtr bp v).ptr x = m.ptr x :=
      fun v x inside => setPtr_other (others x (List.mem_cons_of_mem r.1 inside)) v
    rw [mergeRight] at small ⊢
    by_cases touch : bp + m.size bp * header = r.1
    · have touches : finish header (bp, m.size bp) = r.1 := touch
      rw [if_pos touches] at small ⊢
      rw [first, if_pos touch, size]
      refine ⟨path_moved tail (setPtr_self ..) (unchanged _) ?_, ?_, ?_⟩
      · exact fun x inside => setSize_other (others x (List.mem_cons_of_mem r.1 inside)) _
      · exact (setSize_self ..).trans (Nat.mod_eq_of_lt small)
      · exact fun x other => ⟨setPtr_other other _, setSize_other other _⟩
    · have parted : ¬ finish header (bp, m.size bp) = r.1 := touch
      rw [if_neg parted, first, if_neg touch]
      refine ⟨path_cons.mpr ⟨setPtr_self .., size, ?_⟩, rfl,
        fun x other => ⟨setPtr_other other _, rfl⟩⟩
      exact path_moved tail (setPtr_other notBp _) (unchanged _) (fun _ _ => rfl)

theorem before_last {a x : Nat} {blocks : List Block}
    (sorted : (a :: blocks.map Prod.fst).Pairwise (· < ·))
    (inside : x ∈ (a :: blocks.map Prod.fst).dropLast) : x < lastAddr a blocks := by
  rw [nodes_split, List.pairwise_append] at sorted
  exact sorted.2.2 x inside _ (List.mem_singleton_self _)

theorem joinPrev_path (links : Links m base left) (tail : Path m bp rest base)
    (zero : m.size base = 0) (sorted : (base :: left.map Prod.fst).Pairwise (· < ·))
    (lefts : ∀ x ∈ base :: left.map Prod.fst, x < bp) (rights : ∀ x ∈ rest.map Prod.fst, bp < x)
    (small : ∀ l ∈ left, l.2 + m.size bp < 2 ^ 32) :
    Path (joinPrev m bp (lastAddr base left)) base
        (mergeLeft header left (bp, m.size bp) rest) base ∧
      (joinPrev m bp (lastAddr base left)).size base = 0 ∧
      (∀ x, x ∉ base :: left.map Prod.fst →
        (joinPrev m bp (lastAddr base left)).ptr x = m.ptr x ∧
          (joinPrev m bp (lastAddr base left)).size x = m.size x) ∧
      lastAddr base left ∈
        base :: (mergeLeft header left (bp, m.size bp) rest).map Prod.fst := by
  have low := lefts base List.mem_cons_self
  have below : lastAddr base left < bp := lefts _ lastAddr_mem
  have restOther : ∀ x ∈ rest.map Prod.fst, x ≠ lastAddr base left := fun x inside => by
    have above := rights x inside
    omega
  have bpOther : bp ≠ lastAddr base left := by omega
  have outside : ∀ x, x ∉ base :: left.map Prod.fst → x ≠ lastAddr base left := by
    rintro x out rfl
    exact out lastAddr_mem
  have kept : ∀ v, Links (m.setPtr (lastAddr base left) v) base left := fun v =>
    links_frame links
      (fun x inside => setPtr_other (Nat.ne_of_lt (before_last sorted inside)) v) fun _ _ => rfl
  unfold joinPrev
  rcases List.eq_nil_or_concat' left with rfl | ⟨front, l, rfl⟩
  · -- base has no cells, so it is not merged
    have apart : ¬ base + m.size base * header = bp := by
      rw [zero]
      omega
    change Path (if base + m.size base * header = bp then _ else _) base _ base ∧ _
    rw [lastAddr, if_neg apart]
    refine ⟨path_cons.mpr ⟨setPtr_self .., rfl, ?_⟩, zero,
      fun x out => ⟨setPtr_other (outside x out) _, rfl⟩, List.mem_cons_self⟩
    exact path_moved tail (setPtr_other bpOther _)
      (fun x inside => setPtr_other (restOther x inside) _) (fun _ _ => rfl)
  · have last : lastAddr base (front ++ [l]) = l.1 := by
      rw [lastAddr_append]
      rfl
    obtain ⟨fronts, tied, size, -⟩ := links_append.mp links
    have nodes : base :: (front ++ [l]).map Prod.fst = (base :: front.map Prod.fst) ++ [l.1] := by
      rw [List.map_append]
      rfl
    rw [last] at restOther bpOther outside kept
    rw [nodes, List.pairwise_append] at sorted
    have beforeL : ∀ x ∈ base :: front.map Prod.fst, x ≠ l.1 := fun x inside =>
      Nat.ne_of_lt (sorted.2.2 x inside l.1 (List.mem_singleton_self _))
    rw [last, mergeLeft_concat, size]
    by_cases touch : l.1 + l.2 * header = bp
    · have touches : finish header l = bp := touch
      rw [if_pos touch, if_pos touches]
      have fits := small l (List.mem_append_right front (List.mem_singleton_self l))
      refine ⟨path_append.mpr ⟨?_, path_cons.mpr ⟨?_, ?_, ?_⟩⟩, ?_, ?_, ?_⟩
      · refine links_frame fronts (fun x inside => ?_) (fun x inside => ?_)
        · exact setPtr_other (beforeL x ((List.dropLast_sublist _).subset inside)) _
        · exact setSize_other (beforeL x (List.mem_cons_of_mem base inside)) _
      · exact (setPtr_other (beforeL _ lastAddr_mem) _).trans tied
      · exact (setSize_self ..).trans (Nat.mod_eq_of_lt fits)
      · exact path_moved tail (setPtr_self ..) (fun x inside => setPtr_other (restOther x inside) _)
          (fun x inside => setSize_other (restOther x inside) _)
      · exact (setSize_other (beforeL base List.mem_cons_self) _).trans zero
      · exact fun x out => ⟨setPtr_other (outside x out) _, setSize_other (outside x out) _⟩
      · rw [List.map_append]
        exact List.mem_cons_of_mem _ (List.mem_append_right _ List.mem_cons_self)
    · have parted : ¬ finish header l = bp := touch
      rw [if_neg touch, if_neg parted]
      refine ⟨?_, zero, fun x out => ⟨setPtr_other (outside x out) _, rfl⟩, ?_⟩
      · have whole : front ++ l :: (bp, m.size bp) :: rest =
            (front ++ [l]) ++ (bp, m.size bp) :: rest := by
          rw [List.append_assoc, List.singleton_append]
        rw [whole, path_append, last]
        refine ⟨kept bp, path_cons.mpr ⟨setPtr_self .., rfl, ?_⟩⟩
        exact path_moved tail (setPtr_other bpOther _)
          (fun x inside => setPtr_other (restOther x inside) _) (fun _ _ => rfl)
      · rw [List.map_append]
        exact List.mem_cons_of_mem _ (List.mem_append_right _ List.mem_cons_self)

end Join

/-- The free blocks, in the order of the list, and the blocks of the program. -/
structure Layout (base : Nat) (h : Heap) (blocks live : List Block) : Prop where
  path : Path h.mem base blocks base
  zero : h.mem.size base = 0
  spaced : Spaced header (base + header) blocks
  roving : h.freep ∈ base :: blocks.map Prod.fst
  sizes : ∀ b ∈ live, h.mem.size b.1 = b.2
  above : ∀ b ∈ live, base + header ≤ b.1 ∧ 0 < b.2
  apart : ∀ b ∈ live, ∀ c ∈ blocks, Apart header b c
  distinct : live.Pairwise (Apart header)
  bound : ∀ b ∈ blocks ++ live, finish header b ≤ h.brk
  brk : base + header ≤ h.brk ∧ h.brk ≤ 2 ^ 32
  total : total blocks + total live = h.units

section Layout
variable {base fuel : Nat} {h : Heap} {blocks live left right : List Block} {b : Block}

theorem wide : 0 < header := by decide

theorem layout_length (layout : Layout base h blocks live) : blocks.length + 2 ≤ h.brk + 2 := by
  have length := spaced_length wide layout.spaced
    (fun c inside => layout.bound c (List.mem_append_left live inside)) layout.brk.1
  omega

theorem layout_perm {live' : List Block} (layout : Layout base h blocks live)
    (perm : live.Perm live') : Layout base h blocks live' where
  path := layout.path
  zero := layout.zero
  spaced := layout.spaced
  roving := layout.roving
  sizes b inside := layout.sizes b (perm.mem_iff.mpr inside)
  above b inside := layout.above b (perm.mem_iff.mpr inside)
  apart b inside := layout.apart b (perm.mem_iff.mpr inside)
  distinct := (perm.pairwise_iff apart_symm).mp layout.distinct
  bound b inside := by
    refine layout.bound b ?_
    rcases List.mem_append.mp inside with isFree | isLive
    · exact List.mem_append_left live isFree
    · exact List.mem_append_right blocks (perm.mem_iff.mpr isLive)
  brk := layout.brk
  total := by
    rw [← layout.total, Intervals.total, Intervals.total, Intervals.total,
      (perm.map Prod.snd).sum_nat]

theorem free_layout (layout : Layout base h blocks (b :: live))
    (enough : blocks.length + 2 ≤ fuel) :
    ∃ h' left right, blocks = left ++ right ∧ free fuel h (b.1 + header) = some h' ∧
      Layout base h' (insert header left b right) live ∧ h'.brk = h.brk ∧ h'.units = h.units := by
  have own := layout.above b List.mem_cons_self
  have size := layout.sizes b List.mem_cons_self
  have ends := layout.bound b (List.mem_append_right blocks List.mem_cons_self)
  have positive : ∀ c ∈ blocks, 0 < c.2 := fun c inside => spaced_pos layout.spaced inside
  obtain ⟨left, right, rfl, lefts, rights⟩ :=
    exists_place layout.spaced (layout.apart b List.mem_cons_self)
  have cells : ∀ c : Block, 0 < c.2 → c.1 < finish header c := by
    intro c more
    simp only [finish, header]
    omega
  have leftNodes : ∀ x ∈ base :: left.map Prod.fst, x < b.1 := by
    intro x inside
    rcases List.mem_cons.mp inside with rfl | later
    · have above := own.1
      simp only [header] at above
      omega
    · obtain ⟨l, within, rfl⟩ := List.mem_map.mp later
      exact (cells l (positive l (List.mem_append_left right within))).trans_le (lefts l within)
  have rightNodes : ∀ x ∈ right.map Prod.fst, b.1 < x := by
    intro x inside
    obtain ⟨r, within, rfl⟩ := List.mem_map.mp inside
    exact (cells b own.2).trans_le (rights r within)
  have sorted := spaced_sorted layout.spaced
  have place := findPlace_spec layout.path sorted leftNodes rightNodes layout.roving enough
  obtain ⟨links, tail⟩ := path_append.mp layout.path
  have high := layout.brk.2
  have few : ∀ c : Block, finish header c ≤ h.brk → c.2 < 2 ^ 31 := by
    intro c below
    simp only [finish, header] at below
    omega
  have block : (b.1, h.mem.size b.1) = b := by rw [size]
  have mergedEnds : finish header (mergeRight header b right).1 ≤ h.brk :=
    mergeRight_finish ends fun r inside =>
      layout.bound r (List.mem_append_left _ (List.mem_append_right left inside))
  obtain ⟨tail', size', frame⟩ := joinNext_path tail (leftNodes base List.mem_cons_self) rightNodes
    (by rw [block]; exact (few _ mergedEnds).trans (by decide))
  rw [block] at tail' size'
  generalize joined : joinNext h.mem b.1 (lastAddr base left) = m at tail' size' frame
  have keeps : ∀ x ∈ base :: left.map Prod.fst, m.ptr x = h.mem.ptr x ∧ m.size x = h.mem.size x :=
    fun x inside => frame x (Nat.ne_of_lt (leftNodes x inside))
  have links' : Links m base left := links_frame links
    (fun x inside => (keeps x ((List.dropLast_sublist _).subset inside)).1)
    (fun x inside => (keeps x (List.mem_cons_of_mem base inside)).2)
  have lower : (base :: left.map Prod.fst).Pairwise (· < ·) := by
    rw [List.map_append, ← List.cons_append, List.pairwise_append] at sorted
    exact sorted.1
  have merged : (b.1, m.size b.1) = (mergeRight header b right).1 := by
    rw [size', ← @mergeRight_fst header b right]
  obtain ⟨path, zero, others, node⟩ := joinPrev_path links' tail'
    ((keeps base List.mem_cons_self).2.trans layout.zero) lower leftNodes
    (fun x inside => by
      obtain ⟨c, within, rfl⟩ := List.mem_map.mp inside
      exact rightNodes c.1 (List.mem_map_of_mem (mergeRight_subset c within)))
    (fun l inside => by
      have one := few l (layout.bound l (List.mem_append_left _ (List.mem_append_left right inside)))
      have two := few _ mergedEnds
      rw [size']
      omega)
  rw [merged] at path node
  refine ⟨{ h with mem := joinPrev m b.1 (lastAddr base left), freep := lastAddr base left },
    left, right, rfl, ?_, ?_, rfl, rfl⟩
  · rw [free, Nat.add_sub_cancel, place, ← joined]
    rfl
  · constructor
    case path => exact path
    case zero => exact zero
    case spaced => exact insert_spaced layout.spaced lefts rights own.1 own.2
    case roving => exact node
    case sizes =>
      intro c inside
      have live := layout.above c (List.mem_cons_of_mem b inside)
      have notB : c.1 ≠ b.1 :=
        Ne.symm (apart_ne wide own.2 live.2
          ((List.pairwise_cons.mp layout.distinct).1 c inside))
      have notLeft : c.1 ∉ base :: left.map Prod.fst := by
        intro within
        rcases List.mem_cons.mp within with is | later
        · have above := live.1
          simp only [header] at above
          omega
        · obtain ⟨l, member, is⟩ := List.mem_map.mp later
          have freeBlock := List.mem_append_left right member
          exact apart_ne wide live.2 (positive l freeBlock)
            (layout.apart c (List.mem_cons_of_mem b inside) l freeBlock) is.symm
      change (joinPrev m b.1 (lastAddr base left)).size c.1 = c.2
      rw [(others c.1 notLeft).2, (frame c.1 notB).2]
      exact layout.sizes c (List.mem_cons_of_mem b inside)
    case above => exact fun c inside => layout.above c (List.mem_cons_of_mem b inside)
    case apart =>
      intro c inside
      have live := layout.above c (List.mem_cons_of_mem b inside)
      refine insert_all (Apart header c) ?_ (layout.apart c (List.mem_cons_of_mem b inside)) ?_
      · exact fun x y first second touch => apart_union wide live.2 touch first second
      · exact apart_symm ((List.pairwise_cons.mp layout.distinct).1 c inside)
    case distinct => exact (List.pairwise_cons.mp layout.distinct).2
    case bound =>
      intro c inside
      rcases List.mem_append.mp inside with isFree | isLive
      · refine insert_all (fun c => finish header c ≤ h.brk) ?_ ?_ ends c isFree
        · intro x y _ second touch
          rw [finish_merge touch]
          exact second
        · exact fun c within => layout.bound c (List.mem_append_left _ within)
      · exact layout.bound c (List.mem_append_right _ (List.mem_cons_of_mem b isLive))
    case brk => exact layout.brk
    case total =>
      have total := layout.total
      rw [insert_total]
      simp only [Intervals.total, List.map_cons, List.sum_cons] at total ⊢
      change _ = h.units
      omega

/-- The list around one of its blocks. -/
structure Around (base : Nat) (h : Heap) (left : List Block) (c : Block) (right : List Block) :
    Prop where
  links : Links h.mem base left
  tied : h.mem.ptr (lastAddr base left) = c.1
  size : h.mem.size c.1 = c.2
  tail : Path h.mem c.1 right base
  low : base + header ≤ c.1
  sorted : (base :: left.map Prod.fst).Pairwise (· < ·)
  below : ∀ x ∈ base :: left.map Prod.fst, x < c.1
  beyond : ∀ x ∈ right.map Prod.fst, finish header c < x
  lefts : ∀ l ∈ left, finish header l < c.1
  rights : ∀ r ∈ right, finish header c < r.1

theorem around {c : Block} (layout : Layout base h (left ++ c :: right) live) :
    Around base h left c right := by
  obtain ⟨links, tail⟩ := path_append.mp layout.path
  obtain ⟨tied, size, tail⟩ := path_cons.mp tail
  obtain ⟨lefts, rights⟩ := spaced_lt layout.spaced
  have sorted := spaced_sorted layout.spaced
  rw [List.map_append, ← List.cons_append, List.pairwise_append] at sorted
  refine ⟨links, tied, size, tail,
    spaced_low layout.spaced (List.mem_append_right left List.mem_cons_self), sorted.1,
    fun x within => sorted.2.2 x within c.1 List.mem_cons_self, fun x within => ?_, lefts, rights⟩
  obtain ⟨r, member, rfl⟩ := List.mem_map.mp within
  exact rights r member

theorem mem_around {c d : Block} (within : d ∈ left ++ right) : d ∈ left ++ c :: right := by
  rcases List.mem_append.mp within with earlier | later
  · exact List.mem_append_left _ earlier
  · exact List.mem_append_right left (List.mem_cons_of_mem c later)

theorem carve_whole {c : Block} (layout : Layout base h (left ++ c :: right) live)
    (positive : 0 < c.2) :
    Layout base { h with
      mem := h.mem.setPtr (lastAddr base left) (h.mem.ptr c.1), freep := lastAddr base left }
      (left ++ right) (c :: live) := by
  obtain ⟨links, tied, size, tail, low, sorted, below, beyond, lefts, rights⟩ := around layout
  have inside : c ∈ left ++ c :: right := List.mem_append_right left List.mem_cons_self
  have ends := layout.bound c (List.mem_append_left live inside)
  have previous : lastAddr base left ∈ base :: left.map Prod.fst := lastAddr_mem
  have grows : c.1 ≤ finish header c := Nat.le_add_right _ _
  constructor
  case path =>
    refine path_append.mpr ⟨?_, path_moved tail (setPtr_self ..) ?_ fun _ _ => rfl⟩
    · refine links_frame links (fun x within => ?_) fun _ _ => rfl
      exact setPtr_other (Nat.ne_of_lt (before_last sorted within)) _
    · intro x within
      have above := beyond x within
      have earlier := below _ previous
      exact setPtr_other (by omega) _
  case zero => exact layout.zero
  case spaced => exact spaced_remove layout.spaced
  case roving =>
    change lastAddr base left ∈ _
    rw [List.map_append, ← List.cons_append]
    exact List.mem_append_left _ previous
  case sizes =>
    intro x within
    rcases List.mem_cons.mp within with rfl | older
    · exact size
    · exact layout.sizes x older
  case above =>
    intro x within
    rcases List.mem_cons.mp within with rfl | older
    · exact ⟨low, by omega⟩
    · exact layout.above x older
  case apart =>
    intro x within d member
    rcases List.mem_cons.mp within with rfl | older
    · rcases List.mem_append.mp member with earlier | later
      · exact .inr (Nat.le_of_lt (lefts d earlier))
      · exact .inl (Nat.le_of_lt (rights d later))
    · exact layout.apart x older d (mem_around member)
  case distinct =>
    exact List.pairwise_cons.mpr
      ⟨fun x older => apart_symm (layout.apart x older c inside), layout.distinct⟩
  case bound =>
    intro x within
    rcases List.mem_append.mp within with isFree | isLive
    · exact layout.bound x (List.mem_append_left live (mem_around isFree))
    · rcases List.mem_cons.mp isLive with rfl | older
      · exact ends
      · exact layout.bound x (List.mem_append_right _ older)
  case brk => exact layout.brk
  case total =>
    have total := layout.total
    simp only [Intervals.total, List.map_append, List.map_cons, List.sum_append,
      List.sum_cons] at total ⊢
    change _ = h.units
    omega

theorem carve_tail {c : Block} {nunits : Nat} (layout : Layout base h (left ++ c :: right) live)
    (positive : 0 < nunits) (less : nunits < c.2) :
    Layout base { h with
      mem := (h.mem.setSize c.1 (c.2 - nunits)).setSize (c.1 + (c.2 - nunits) * header) nunits,
      freep := lastAddr base left }
      (left ++ (c.1, c.2 - nunits) :: right)
      ((c.1 + (c.2 - nunits) * header, nunits) :: live) := by
  obtain ⟨links, tied, size, tail, low, sorted, below, beyond, lefts, rights⟩ := around layout
  have inside : c ∈ left ++ c :: right := List.mem_append_right left List.mem_cons_self
  have ends := layout.bound c (List.mem_append_left live inside)
  have previous : lastAddr base left ∈ base :: left.map Prod.fst := lastAddr_mem
  have more : 0 < c.2 - nunits := by omega
  have tailEnds : finish header (c.1 + (c.2 - nunits) * header, nunits) = finish header c := by
    simp only [finish, header]
    omega
  have inner : c.1 < c.1 + (c.2 - nunits) * header ∧
      c.1 + (c.2 - nunits) * header < finish header c := by
    simp only [finish, header]
    omega
  constructor
  case path =>
    refine path_append.mpr ⟨?_, path_cons.mpr ⟨tied, ?_, ?_⟩⟩
    · refine links_frame links (fun _ _ => rfl) fun x within => ?_
      have earlier := below x (List.mem_cons_of_mem base within)
      exact (setSize_other (by omega) _).trans (setSize_other (by omega) _)
    · exact (setSize_other (by omega) _).trans (setSize_self ..)
    · refine path_moved tail rfl (fun _ _ => rfl) fun x within => ?_
      have above := beyond x within
      exact (setSize_other (by omega) _).trans (setSize_other (by omega) _)
  case zero =>
    simp only [header] at low
    exact ((setSize_other (by omega) _).trans (setSize_other (by omega) _)).trans layout.zero
  case spaced => exact spaced_shrink layout.spaced more (Nat.sub_le _ _)
  case roving =>
    change lastAddr base left ∈ _
    rw [List.map_append, ← List.cons_append]
    exact List.mem_append_left _ previous
  case sizes =>
    intro x within
    rcases List.mem_cons.mp within with rfl | older
    · exact setSize_self ..
    · have live := layout.above x older
      have outside := layout.apart x older c inside
      have cells := Nat.mul_pos live.2 wide
      have unmoved : x.1 ≠ c.1 + (c.2 - nunits) * header ∧ x.1 ≠ c.1 := by
        simp only [Apart] at outside
        rw [finish] at outside
        omega
      exact ((setSize_other unmoved.1 _).trans (setSize_other unmoved.2 _)).trans
        (layout.sizes x older)
  case above =>
    intro x within
    rcases List.mem_cons.mp within with rfl | older
    · exact ⟨by change _ ≤ c.1 + _; omega, positive⟩
    · exact layout.above x older
  case apart =>
    intro x within d member
    have shrunk : finish header (c.1, c.2 - nunits) = c.1 + (c.2 - nunits) * header := rfl
    rcases List.mem_cons.mp within with rfl | older
    · rcases List.mem_append.mp member with earlier | later
      · have before := lefts d earlier
        exact .inr (by change _ ≤ c.1 + _; omega)
      · rcases List.mem_cons.mp later with rfl | later'
        · exact .inr (by rw [shrunk])
        · exact .inl (by rw [tailEnds]; exact Nat.le_of_lt (rights d later'))
    · rcases List.mem_append.mp member with earlier | later
      · exact layout.apart x older d (mem_around (List.mem_append_left right earlier))
      · rcases List.mem_cons.mp later with rfl | later'
        · exact apart_part (layout.apart x older c inside) le_rfl (by rw [shrunk]; omega)
        · exact layout.apart x older d (mem_around (List.mem_append_right left later'))
  case distinct =>
    refine List.pairwise_cons.mpr ⟨fun x older => ?_, layout.distinct⟩
    exact apart_symm (apart_part (layout.apart x older c inside) (by omega) tailEnds.le)
  case bound =>
    intro x within
    rcases List.mem_append.mp within with isFree | isLive
    · rcases List.mem_append.mp isFree with earlier | later
      · exact layout.bound x (List.mem_append_left live (List.mem_append_left _ earlier))
      · rcases List.mem_cons.mp later with rfl | later'
        · change c.1 + (c.2 - nunits) * header ≤ h.brk
          omega
        · exact layout.bound x (List.mem_append_left live
            (List.mem_append_right left (List.mem_cons_of_mem c later')))
    · rcases List.mem_cons.mp isLive with rfl | older
      · rw [tailEnds]
        exact ends
      · exact layout.bound x (List.mem_append_right _ older)
  case brk => exact layout.brk
  case total =>
    have total := layout.total
    simp only [Intervals.total, List.map_append, List.map_cons, List.sum_append,
      List.sum_cons] at total ⊢
    change _ = h.units
    omega

theorem carve_layout {c : Block} {nunits : Nat} (layout : Layout base h (left ++ c :: right) live)
    (positive : 0 < nunits) (fits : nunits ≤ c.2) :
    ∃ blocks b, Layout base (carve h nunits (lastAddr base left) c.1).1 blocks (b :: live) ∧
      (carve h nunits (lastAddr base left) c.1).2 = b.1 + header ∧ b.2 = nunits ∧
      ∀ x ∈ b :: blocks, Part header (left ++ c :: right) x := by
  have size := (around layout).size
  have inside : c ∈ left ++ c :: right := List.mem_append_right left List.mem_cons_self
  by_cases whole : c.2 = nunits
  · rw [carve, size, if_pos whole]
    refine ⟨left ++ right, c, carve_whole layout (by omega), rfl, whole, fun x within => ?_⟩
    rcases List.mem_cons.mp within with rfl | later
    · exact part_self inside
    · exact part_self (mem_around later)
  · rw [carve, size, if_neg whole]
    refine ⟨_, _, carve_tail layout positive (by omega), rfl, rfl, fun x within => ?_⟩
    rcases List.mem_cons.mp within with rfl | later
    · refine ⟨c, inside, Nat.le_add_right _ _, ?_⟩
      simp only [finish, header]
      omega
    · rcases List.mem_append.mp later with earlier | others
      · exact part_self (List.mem_append_left _ earlier)
      · rcases List.mem_cons.mp others with rfl | beyond
        · refine ⟨c, inside, le_rfl, ?_⟩
          simp only [finish, header]
          omega
        · exact part_self (List.mem_append_right left (List.mem_cons_of_mem c beyond))

end Layout

/-! The loop of malloc goes once around the list. -/

section Search
variable {base bound nunits fuel a : Nat} {h : Heap} {blocks live left right : List Block}

theorem first_fit (nunits : Nat) (blocks : List Block) :
    (∀ b ∈ blocks, b.2 < nunits) ∨
      ∃ left c right, blocks = left ++ c :: right ∧ (∀ b ∈ left, b.2 < nunits) ∧
        nunits ≤ c.2 := by
  induction blocks with
  | nil => exact .inl fun b inside => (by cases inside)
  | cons b rest ih =>
    by_cases large : nunits ≤ b.2
    · exact .inr ⟨[], b, rest, rfl, fun d inside => (by cases inside), large⟩
    · rcases ih with small | ⟨left, c, right, is, small, fits⟩
      · refine .inl fun d inside => ?_
        rcases List.mem_cons.mp inside with rfl | later
        · exact Nat.lt_of_not_le large
        · exact small d later
      · refine .inr ⟨b :: left, c, right, by rw [is, List.cons_append], fun d inside => ?_, fits⟩
        rcases List.mem_cons.mp inside with rfl | later
        · exact Nat.lt_of_not_le large
        · exact small d later

theorem search_next {p prevp : Nat} (small : h.mem.size p < nunits) (other : p ≠ h.freep) :
    search bound nunits (fuel + 1) h prevp p = search bound nunits fuel h p (h.mem.ptr p) := by
  rw [search, if_neg (Nat.not_le.mpr small), if_neg other]

theorem search_walk (links : Links h.mem a blocks) (small : ∀ b ∈ blocks, b.2 < nunits)
    (other : h.freep ∉ blocks.map Prod.fst) :
    search bound nunits (fuel + blocks.length) h a (h.mem.ptr a) =
      search bound nunits fuel h (lastAddr a blocks) (h.mem.ptr (lastAddr a blocks)) := by
  induction blocks generalizing a with
  | nil => rfl
  | cons b rest ih =>
    rw [List.map_cons, List.mem_cons, not_or] at other
    rw [List.length_cons, ← Nat.add_assoc, links.1, search_next _ (Ne.symm other.1)]
    · exact ih links.2.2 (fun d inside => small d (List.mem_cons_of_mem b inside)) other.2
    · rw [links.2.1]
      exact small b List.mem_cons_self

theorem search_found {c : Block} (links : Links h.mem a (left ++ c :: right))
    (small : ∀ b ∈ left, b.2 < nunits) (other : h.freep ∉ left.map Prod.fst)
    (fits : nunits ≤ c.2) :
    search bound nunits (fuel + 1 + left.length) h a (h.mem.ptr a) =
      some (carve h nunits (lastAddr a left) c.1) := by
  obtain ⟨links, tied, size, -⟩ := links_append.mp links
  rw [search_walk links small other, tied, search, if_pos (by rw [size]; exact fits)]

/-- The search when the whole list has no block that is large enough. -/
def refill (bound nunits fuel : Nat) (h : Heap) : Option (Heap × Nat) :=
  match morecore bound h nunits with
  | none => none
  | some (h, false) => some (h, 0)
  | some (h, true) => search bound nunits fuel h h.freep (h.mem.ptr h.freep)

theorem search_refill {prevp : Nat} (small : h.mem.size h.freep < nunits) :
    search bound nunits (fuel + 1) h prevp h.freep = refill bound nunits fuel h := by
  rw [search, if_neg (Nat.not_le.mpr small), if_pos rfl]
  rfl

theorem search_round (bound : Nat) (layout : Layout base h blocks live)
    (positive : 0 < nunits) :
    (∃ left c right, blocks = left ++ c :: right ∧ nunits ≤ c.2 ∧
      ∀ fuel, blocks.length + 2 ≤ fuel →
        search bound nunits fuel h h.freep (h.mem.ptr h.freep) =
          some (carve h nunits (lastAddr base left) c.1)) ∨
    (∀ b ∈ blocks, b.2 < nunits) ∧ ∀ fuel,
      search bound nunits (fuel + 1 + blocks.length) h h.freep (h.mem.ptr h.freep) =
        refill bound nunits fuel h := by
  obtain ⟨front, back, rfl, freep⟩ := exists_front layout.roving
  obtain ⟨links, tail⟩ := path_append.mp layout.path
  rw [← freep] at tail
  have sorted := spaced_sorted layout.spaced
  rw [List.map_append, ← List.cons_append, List.pairwise_append] at sorted
  have notBack : h.freep ∉ back.map Prod.fst := by
    intro inside
    have less : lastAddr base front < h.freep := sorted.2.2 _ lastAddr_mem h.freep inside
    rw [← freep] at less
    exact Nat.lt_irrefl _ less
  rcases first_fit nunits back with small | ⟨left, c, right, rfl, small, fits⟩
  · -- nothing after the roving pointer; the walk goes on at base
    have toBase : ∀ fuel, search bound nunits (fuel + back.length) h h.freep (h.mem.ptr h.freep) =
        search bound nunits fuel h (lastAddr h.freep back) base := by
      intro fuel
      rw [search_walk tail.1 small notBack, tail.2]
    have baseSmall : h.mem.size base < nunits := by
      rw [layout.zero]
      exact positive
    rcases List.eq_nil_or_concat' front with rfl | ⟨front, last, rfl⟩
    · refine .inr ⟨small, fun fuel => ?_⟩
      rw [List.nil_append, toBase]
      have same : base = h.freep := freep.symm
      rw [same]
      exact search_refill (by rw [← same]; exact baseSmall)
    · rw [lastAddr_append] at freep
      have isLast : h.freep = last.1 := freep
      rw [List.map_append, ← List.cons_append, List.pairwise_append] at sorted
      have before : ∀ x ∈ base :: front.map Prod.fst, x ≠ h.freep := by
        intro x inside
        rw [isLast]
        exact Nat.ne_of_lt (sorted.1.2.2 x inside last.1 (List.mem_singleton_self _))
      have notFront : h.freep ∉ front.map Prod.fst :=
        fun inside => before _ (List.mem_cons_of_mem base inside) rfl
      have around : ∀ fuel, search bound nunits (fuel + 1 + back.length) h h.freep
          (h.mem.ptr h.freep) = search bound nunits fuel h base (h.mem.ptr base) := by
        intro fuel
        rw [toBase, search_next baseSmall (before base List.mem_cons_self)]
      rcases first_fit nunits front with smallFront | ⟨left, c, right, rfl, smallFront, fits⟩
      · obtain ⟨fronts, tied, size, -⟩ := links_append.mp links
        by_cases large : nunits ≤ last.2
        · refine .inl ⟨front, last, back, by rw [List.append_assoc]; rfl, large, ?_⟩
          intro fuel enough
          obtain ⟨spare, rfl⟩ : ∃ spare, fuel = spare + 1 + front.length + 1 + back.length := by
            simp only [List.length_append, List.length_singleton] at enough
            exact ⟨fuel - 2 - front.length - back.length, by omega⟩
          rw [around]
          have whole : Links h.mem base (front ++ last :: []) := links
          exact search_found whole smallFront notFront large
        · refine .inr ⟨?_, fun fuel => ?_⟩
          · intro b inside
            rcases List.mem_append.mp inside with earlier | later
            · rcases List.mem_append.mp earlier with first | isLastOne
              · exact smallFront b first
              · rw [List.mem_singleton.mp isLastOne]
                exact Nat.lt_of_not_le large
            · exact small b later
          · have length : fuel + 1 + (front ++ [last] ++ back).length =
                fuel + 1 + front.length + 1 + back.length := by
              simp only [List.length_append, List.length_singleton]
              omega
            rw [length, around, search_walk fronts smallFront notFront, tied, ← isLast]
            refine search_refill ?_
            rw [isLast, size]
            exact Nat.lt_of_not_le large
      · refine .inl ⟨left, c, right ++ [last] ++ back, by simp, fits, ?_⟩
        intro fuel enough
        obtain ⟨spare, rfl⟩ : ∃ spare, fuel = spare + 1 + left.length + 1 + back.length := by
          simp only [List.length_append, List.length_cons] at enough
          exact ⟨fuel - 2 - left.length - back.length, by omega⟩
        rw [around]
        rw [List.map_append, List.mem_append, not_or] at notFront
        exact search_found (links_append.mp links).1 smallFront notFront.1 fits
  · refine .inl ⟨front ++ left, c, right, by rw [List.append_assoc], fits, ?_⟩
    intro fuel enough
    obtain ⟨spare, rfl⟩ : ∃ spare, fuel = spare + 1 + left.length := by
      simp only [List.length_append, List.length_cons] at enough
      exact ⟨fuel - 1 - left.length, by omega⟩
    rw [List.map_append, List.mem_append, not_or] at notBack
    rw [search_found tail.1 small notBack.1 fits, lastAddr_append, ← freep]

/-- sbrk, if it succeeds, gives fresh memory below 2^32. -/
def Legal (brk nunits : Nat) (answers : List (Option Nat)) : Prop :=
  ∀ p rest, answers = some p :: rest → brk ≤ p ∧ p + grow nunits * header ≤ 2 ^ 32

theorem layout_answers (layout : Layout base h blocks live) (answers : List (Option Nat)) :
    Layout base { h with answers } blocks live :=
  ⟨layout.path, layout.zero, layout.spaced, layout.roving, layout.sizes, layout.above,
    layout.apart, layout.distinct, layout.bound, layout.brk, layout.total⟩

theorem fresh_layout {p nu : Nat} (layout : Layout base h blocks live) (beyond : h.brk ≤ p)
    (limit : p + nu * header ≤ 2 ^ 32) (positive : 0 < nu) (answers : List (Option Nat)) :
    Layout base { h with
      mem := h.mem.setSize p nu, brk := p + nu * header, answers, units := h.units + nu }
      blocks ((p, nu) :: live) := by
  have low := layout.brk.1
  have ends : ∀ c ∈ blocks ++ live, finish header c ≤ p := fun c inside =>
    (layout.bound c inside).trans beyond
  have other : ∀ c ∈ blocks ++ live, 0 < c.2 → c.1 ≠ p := by
    intro c inside more
    have stop := ends c inside
    simp only [finish, header] at stop
    omega
  constructor
  case path =>
    refine path_moved layout.path rfl (fun _ _ => rfl) fun x inside => ?_
    obtain ⟨c, member, rfl⟩ := List.mem_map.mp inside
    exact setSize_other (other c (List.mem_append_left live member)
      (spaced_pos layout.spaced member)) _
  case zero =>
    simp only [header] at low
    exact (setSize_other (by omega) _).trans layout.zero
  case spaced => exact layout.spaced
  case roving => exact layout.roving
  case sizes =>
    intro c inside
    rcases List.mem_cons.mp inside with rfl | older
    · exact setSize_self ..
    · exact (setSize_other (other c (List.mem_append_right blocks older)
        (layout.above c older).2) _).trans (layout.sizes c older)
  case above =>
    intro c inside
    rcases List.mem_cons.mp inside with rfl | older
    · exact ⟨low.trans beyond, positive⟩
    · exact layout.above c older
  case apart =>
    intro c inside d member
    rcases List.mem_cons.mp inside with rfl | older
    · exact .inr (ends d (List.mem_append_left live member))
    · exact layout.apart c older d member
  case distinct =>
    exact List.pairwise_cons.mpr
      ⟨fun c older => .inr (ends c (List.mem_append_right blocks older)), layout.distinct⟩
  case bound =>
    intro c inside
    change finish header c ≤ p + nu * header
    rcases List.mem_append.mp inside with isFree | isLive
    · exact (ends c (List.mem_append_left live isFree)).trans (Nat.le_add_right _ _)
    · rcases List.mem_cons.mp isLive with rfl | older
      · exact le_rfl
      · exact (ends c (List.mem_append_right blocks older)).trans (Nat.le_add_right _ _)
  case brk => exact ⟨(low.trans beyond).trans (Nat.le_add_right _ _), limit⟩
  case total =>
    have total := layout.total
    simp only [Intervals.total, List.map_cons, List.sum_cons] at total ⊢
    change _ = h.units + nu
    omega

theorem grow_int (small : nunits * header < 2 ^ 31) :
    Int.bmod (grow nunits * header) (2 ^ 32) = (grow nunits * header : Nat) := by
  have limit : grow nunits * header < 2 ^ 31 := by
    unfold grow
    split
    · decide
    · exact small
  have plain : Int.bmod ((grow nunits * header : Nat) : Int) (2 ^ 32) =
      ((grow nunits * header : Nat) : Int) := by
    apply Int.bmod_eq_of_le <;> omega
  rw [Int.natCast_mul] at plain ⊢
  exact plain

theorem grow_bytes (small : nunits * header < 2 ^ 31) :
    (Int.bmod (grow nunits * header) (2 ^ 32)).toNat = grow nunits * header := by
  rw [grow_int small]
  rfl

theorem grow_le (nunits : Nat) : nunits ≤ grow nunits := by
  unfold grow
  split <;> omega

theorem free_answers {p : Nat} {h' : Heap} (freed : free fuel h p = some h') :
    h'.answers = h.answers := by
  obtain ⟨q, -, rfl⟩ := Option.map_eq_some_iff.mp freed
  rfl

theorem carve_answers {prevp p : Nat} : (carve h nunits prevp p).1.answers = h.answers := by
  rw [carve]
  split <;> rfl

/-- Where the blocks come from: all are parts of the earlier blocks, or sbrk gave memory
that was added to them. -/
def Drawn (h h' : Heap) (blocks : List Block) (nunits : Nat) (now : List Block) : Prop :=
  (h'.answers = h.answers ∧ ∀ x ∈ now, Part header blocks x) ∨
  ∃ p left right, blocks = left ++ right ∧ h.answers = some p :: h'.answers ∧
    ∀ x ∈ now, Part header (insert header left (p, grow nunits) right) x

theorem morecore_cases (layout : Layout base h blocks live) (positive : 0 < nunits)
    (small : nunits * header < 2 ^ 31) (enough : blocks.length + 2 ≤ bound) :
    morecore bound h nunits = none ∧ ¬ Legal h.brk nunits h.answers ∨
    morecore bound h nunits = some ({ h with answers := h.answers.tail }, false) ∨
    ∃ h' p left right, h.answers = some p :: h'.answers ∧ blocks = left ++ right ∧
      morecore bound h nunits = some (h', true) ∧
      Layout base h' (insert header left (p, grow nunits) right) live := by
  have bytes := grow_bytes small
  have units := grow_le nunits
  unfold morecore
  simp only [Option.bind_eq_bind]
  change (sbrk h (Int.bmod (grow nunits * header) (2 ^ 32))).bind _ = none ∧ _ ∨ _
  match answers : h.answers with
  | [] =>
    refine .inr (.inl ?_)
    simp only [sbrk, answers, Option.bind_some, List.tail_nil]
    rw [← answers]
  | none :: rest =>
    refine .inr (.inl ?_)
    simp only [sbrk, answers, Option.bind_some, List.tail_cons]
  | some p :: rest =>
    by_cases legal : h.brk ≤ p ∧ p + grow nunits * header ≤ 2 ^ 32
    · have block := fresh_layout layout legal.1 legal.2 (by omega) rest
      obtain ⟨h', left, right, is, freed, done, -⟩ := free_layout block enough
      refine .inr (.inr ⟨h', p, left, right, ?_, is, ?_, done⟩)
      · rw [free_answers freed]
      · simp only [sbrk, answers, bytes, if_pos legal, Option.bind_some]
        rw [freed]
        rfl
    · refine .inl ⟨?_, fun all => legal (all p rest rfl)⟩
      simp only [sbrk, answers, bytes, if_neg legal, Option.bind_none]

theorem search_layout (layout : Layout base h blocks live) (positive : 0 < nunits)
    (small : nunits * header < 2 ^ 31) (enough : blocks.length + 2 ≤ bound)
    (rounds : 2 * blocks.length + 4 ≤ fuel) :
    search bound nunits fuel h h.freep (h.mem.ptr h.freep) = none ∧
      ¬ Legal h.brk nunits h.answers ∨
    ∃ h' p, search bound nunits fuel h h.freep (h.mem.ptr h.freep) = some (h', p) ∧
      (p = 0 ∧ h' = { h with answers := h.answers.tail } ∨
        ∃ blocks' b, Layout base h' blocks' (b :: live) ∧ p = b.1 + header ∧ b.2 = nunits ∧
          Drawn h h' blocks nunits (b :: blocks')) := by
  rcases search_round bound layout positive with
    ⟨left, c, right, rfl, fits, found⟩ | ⟨tooSmall, refilled⟩
  · obtain ⟨blocks', b, after, pointer, size, parts⟩ := carve_layout layout positive fits
    exact .inr ⟨_, _, found fuel (by omega),
      .inr ⟨blocks', b, after, pointer, size, .inl ⟨carve_answers, parts⟩⟩⟩
  · obtain ⟨spare, rfl⟩ : ∃ spare, fuel = spare + 1 + blocks.length :=
      ⟨fuel - 1 - blocks.length, by omega⟩
    rw [refilled spare, refill]
    rcases morecore_cases layout positive small enough with
      ⟨stuck, illegal⟩ | failed |
      ⟨h', p, left, right, answers, is, grown, after⟩
    · rw [stuck]
      exact .inl ⟨rfl, illegal⟩
    · rw [failed]
      exact .inr ⟨_, 0, rfl, .inl ⟨rfl, rfl⟩⟩
    · rw [grown]
      -- the new block is found in the second round
      have length : (insert header left (p, grow nunits) right).length ≤ blocks.length + 1 := by
        rw [is]
        exact insert_length
      rcases search_round bound after positive with
        ⟨front, d, back, split, fits, found⟩ | ⟨stillSmall, -⟩
      · have inserted := after
        rw [split] at inserted
        obtain ⟨blocks', b, final, pointer, size, parts⟩ := carve_layout inserted positive fits
        rw [← split] at parts
        have same : h.answers =
            some p :: (carve h' nunits (lastAddr base front) d.1).1.answers := by
          rw [carve_answers]
          exact answers
        exact .inr ⟨_, _, found spare (by omega), .inr ⟨blocks', b, final, pointer, size,
          .inr ⟨p, left, right, is, same, parts⟩⟩⟩
      · obtain ⟨c, inside, large⟩ := @insert_large header (p, grow nunits) left right
        exact absurd ((grow_le nunits).trans large) (Nat.not_le.mpr (stillSmall c inside))

end Search

/-! The program's calls. -/

section Program
variable {base : Nat} {s next : State}

theorem unitsFor_spec {nbytes : Nat} (limit : nbytes < 2 ^ 31 - 65536) :
    0 < unitsFor nbytes ∧ unitsFor nbytes * header < 2 ^ 31 ∧
      nbytes ≤ (unitsFor nbytes - 1) * header := by
  simp only [unitsFor, header]
  omega

/-- Before the first call of malloc there is no list. -/
structure Unused (base : Nat) (s : State) : Prop where
  freep : s.heap.freep = 0
  live : s.live = []
  units : s.heap.units = 0
  brk : base + header ≤ s.heap.brk ∧ s.heap.brk ≤ 2 ^ 32

/-- The blocks of the program are as large as it asked for. -/
def Usable (live : List Live) : Prop :=
  ∀ e ∈ live, header ≤ e.p ∧ e.nbytes ≤ (e.units - 1) * header

def Inv (base : Nat) (s : State) : Prop :=
  Unused base s ∨ (∃ blocks, Layout base s.heap blocks (s.live.map Live.block)) ∧ Usable s.live

theorem layout_freep {blocks live : List Block} {h : Heap} (image : 0 < base)
    (layout : Layout base h blocks live) : h.freep ≠ 0 := by
  rcases List.mem_cons.mp layout.roving with is | inside
  · omega
  · obtain ⟨c, member, is⟩ := List.mem_map.mp inside
    have low := spaced_low layout.spaced member
    omega

theorem start_empty (unused : Unused base s) (answers : List (Option Nat)) :
    Layout base (start base { s.heap with answers }) [] (s.live.map Live.block) := by
  rw [start, if_pos unused.freep, unused.live]
  exact
    { path := ⟨trivial, setPtr_self ..⟩
      zero := setSize_self ..
      spaced := trivial
      roving := List.mem_cons_self
      sizes := fun b inside => (by cases inside)
      above := fun b inside => (by cases inside)
      apart := fun b inside => (by cases inside)
      distinct := List.Pairwise.nil
      bound := fun b inside => (by cases inside)
      brk := unused.brk
      total := unused.units.symm }

theorem start_answers (h : Heap) (answers : List (Option Nat)) :
    start base { h with answers } = { start base h with answers } := by
  rw [start, start]
  split <;> rfl

theorem start_brk (h : Heap) : (start base h).brk = h.brk := by
  rw [start]
  split <;> rfl

theorem start_layout (image : 0 < base) (inv : Inv base s) (answers : List (Option Nat)) :
    ∃ blocks, Layout base (start base { s.heap with answers }) blocks (s.live.map Live.block) ∧
      (start base { s.heap with answers }).brk = s.heap.brk ∧
      (start base { s.heap with answers }).answers = answers ∧ Usable s.live := by
  rcases inv with unused | ⟨⟨blocks, layout⟩, usable⟩
  · refine ⟨[], start_empty unused answers, start_brk _, by rw [start_answers], ?_⟩
    rw [unused.live]
    exact fun e inside => (by cases inside)
  · rw [start, if_neg (layout_freep image layout)]
    exact ⟨blocks, layout_answers layout answers, rfl, rfl, usable⟩

theorem malloc_cases {nbytes : Nat} {answers : List (Option Nat)} (image : 0 < base)
    (inv : Inv base s) (limit : nbytes < 2 ^ 31 - 65536) :
    step base s (.malloc nbytes answers) = none ∧
      ¬ Legal s.heap.brk (unitsFor nbytes) answers ∨
    ∃ next, step base s (.malloc nbytes answers) = some next ∧ Inv base next := by
  obtain ⟨blocks, layout, brk, given, usable⟩ := start_layout image inv answers
  obtain ⟨positive, small, fits⟩ := unitsFor_spec limit
  have length := layout_length layout
  simp only [step, if_pos limit, malloc]
  rcases search_layout layout positive small length
      (show 2 * blocks.length + 4 ≤ 2 * ((start base { s.heap with answers }).brk + 4) by omega) with
    ⟨stuck, illegal⟩ | ⟨h', p, found, ⟨rfl, rfl⟩ | ⟨blocks', b, after, rfl, size, -⟩⟩
  · rw [brk, given] at illegal
    rw [stuck]
    exact .inl ⟨rfl, illegal⟩
  · rw [found]
    exact .inr ⟨_, rfl, .inr ⟨⟨blocks, layout_answers layout _⟩, usable⟩⟩
  · have notNull : ¬ b.1 + header = 0 := by
      simp only [header]
      omega
    rw [found]
    refine .inr ⟨_, rfl, .inr ⟨⟨blocks', ?_⟩, ?_⟩⟩
    · have block :
          (Live.mk (b.1 + header) nbytes (h'.mem.size (b.1 + header - header))).block = b := by
        rw [Live.block]
        simp only [Nat.add_sub_cancel]
        rw [after.sizes b List.mem_cons_self]
      dsimp only
      rw [if_neg notNull, List.map_cons, block]
      exact after
    · dsimp only
      rw [if_neg notNull]
      intro e inside
      rcases List.mem_cons.mp inside with rfl | older
      · refine ⟨Nat.le_add_left _ _, ?_⟩
        change nbytes ≤ (h'.mem.size (b.1 + header - header) - 1) * header
        rw [Nat.add_sub_cancel, after.sizes b List.mem_cons_self, size]
        exact fits
      · exact usable e older

theorem free_live {blocks : List Block} {e : Live}
    (layout : Layout base s.heap blocks (s.live.map Live.block)) (usable : Usable s.live)
    (inside : e ∈ s.live) :
    ∃ h' found left right, found ∈ s.live ∧ blocks = left ++ right ∧
      step base s (.free e.p) = some ⟨h', s.live.erase found⟩ ∧
      Layout base h' (insert header left found.block right)
        ((s.live.erase found).map Live.block) := by
  have some : (s.live.find? (·.p = e.p)).isSome := by
    rw [List.find?_isSome]
    exact ⟨e, inside, decide_eq_true rfl⟩
  obtain ⟨found, is⟩ := Option.isSome_iff_exists.mp some
  have member : found ∈ s.live := List.mem_of_find?_eq_some is
  have pointer : found.p = e.p := by simpa using List.find?_some is
  have perm := List.perm_cons_erase member
  have split := layout_perm layout (perm.map Live.block)
  rw [List.map_cons] at split
  have address : found.block.1 + header = e.p := by
    change found.p - header + header = e.p
    rw [Nat.sub_add_cancel (usable found member).1, pointer]
  obtain ⟨h', left, right, place, freed, after, -⟩ := free_layout split (layout_length layout)
  rw [address] at freed
  refine ⟨h', found, left, right, member, place, ?_, after⟩
  simp only [step, is]
  rw [freed]
  rfl

theorem free_cases {e : Live} (inv : Inv base s) (inside : e ∈ s.live) :
    ∃ next, step base s (.free e.p) = some next ∧ Inv base next := by
  rcases inv with unused | ⟨⟨blocks, layout⟩, usable⟩
  · rw [unused.live] at inside
    cases inside
  · obtain ⟨h', found, left, right, -, -, freed, after⟩ := free_live layout usable inside
    exact ⟨_, freed, .inr ⟨⟨_, after⟩, fun x within => usable x (List.mem_of_mem_erase within)⟩⟩

theorem covers_apart {e : Live} {a : Nat} {c : Block} (covers : e.covers a) (low : header ≤ e.p)
    (some : 0 < e.units) (cells : 0 < c.2) (apart : Apart header e.block c) : a ≠ c.1 := by
  simp only [Live.covers, Apart, Live.block, finish, header] at covers apart low
  omega

theorem layout_write {h : Heap} {blocks : List Block} {live : List Live} {e : Live} {a : Nat}
    (layout : Layout base h blocks (live.map Live.block)) (usable : Usable live)
    (member : e ∈ live) (covers : e.covers a) (ptr size : Nat) :
    Layout base { h with mem := (h.mem.setPtr a ptr).setSize a size } blocks
      (live.map Live.block) := by
  have isLive : e.block ∈ live.map Live.block := List.mem_map_of_mem member
  have low := (usable e member).1
  have own := layout.above e.block isLive
  have notBase : base ≠ a := by
    have above := own.1
    simp only [Live.covers, Live.block, header] at covers above low
    omega
  have notFree : ∀ c ∈ blocks, c.1 ≠ a := fun c inside =>
    Ne.symm (covers_apart covers low own.2 (spaced_pos layout.spaced inside)
      (layout.apart _ isLive c inside))
  have symmetric : Std.Symm (Apart header) := ⟨fun _ _ => apart_symm⟩
  have notLive : ∀ c ∈ live.map Live.block, c.1 ≠ a := by
    intro c inside
    by_cases same : c = e.block
    · rw [same]
      simp only [Live.covers, Live.block, header] at covers low ⊢
      omega
    · exact Ne.symm (covers_apart covers low own.2 (layout.above c inside).2
        (layout.distinct.forall isLive inside (Ne.symm same)))
  have nodes : ∀ x ∈ blocks.map Prod.fst, x ≠ a := by
    intro x inside
    obtain ⟨c, within, rfl⟩ := List.mem_map.mp inside
    exact notFree c within
  exact
    { path := path_moved layout.path (setPtr_other notBase _)
        (fun x inside => setPtr_other (nodes x inside) _)
        (fun x inside => setSize_other (nodes x inside) _)
      zero := (setSize_other notBase _).trans layout.zero
      spaced := layout.spaced
      roving := layout.roving
      sizes := fun c inside => (setSize_other (notLive c inside) _).trans (layout.sizes c inside)
      above := layout.above
      apart := layout.apart
      distinct := layout.distinct
      bound := layout.bound
      brk := layout.brk
      total := layout.total }

theorem write_inv {a ptr size : Nat} (inv : Inv base s)
    (stepped : step base s (.write a ptr size) = some next) : Inv base next := by
  simp only [step] at stepped
  split at stepped
  · rename_i covered
    obtain ⟨e, member, covers⟩ := covered
    cases stepped
    rcases inv with unused | ⟨⟨blocks, layout⟩, usable⟩
    · rw [unused.live] at member
      cases member
    · exact .inr ⟨⟨blocks, layout_write layout usable member covers ptr size⟩, usable⟩
  · cases stepped

theorem step_inv (image : 0 < base) (s : State) (label : Label) (next : State)
    (inv : Inv base s) (stepped : step base s label = some next) : Inv base next := by
  cases label with
  | malloc nbytes answers =>
    by_cases limit : nbytes < 2 ^ 31 - 65536
    · rcases malloc_cases image inv limit with ⟨stuck, -⟩ | ⟨after, returns, holds⟩
      · rw [stuck] at stepped
        cases stepped
      · rw [returns] at stepped
        cases stepped
        exact holds
    · simp only [step, if_neg limit] at stepped
      cases stepped
  | free p =>
    cases is : s.live.find? (·.p = p) with
    | none =>
      simp only [step, is] at stepped
      cases stepped
    | some e =>
      have pointer : e.p = p := by simpa using List.find?_some is
      obtain ⟨after, returns, holds⟩ := free_cases inv (List.mem_of_find?_eq_some is)
      rw [pointer, stepped] at returns
      cases returns
      exact holds
  | write a ptr size => exact write_inv inv stepped

/-- After any calls of malloc and free: the free blocks form a circular list from base, in
the order of their addresses, and do not touch; the blocks of the program are large enough
and apart from each other and from the free ones; all units come from sbrk; and malloc and
free return. -/
theorem heap_sound (mem : Mem) (brk : Nat) (image : 0 < base) (below : base + header ≤ brk)
    (limit : brk ≤ 2 ^ 32) (labels : List Label) (s : State)
    (run : Transition.exec (step base) (fresh mem brk) labels = some s) :
    (s.heap.freep = 0 ∧ s.live = [] ∧ s.heap.units = 0 ∨
      ∃ blocks, Path s.heap.mem base blocks base ∧ Spaced header (base + header) blocks ∧
        s.heap.freep ∈ base :: blocks.map Prod.fst ∧
        (∀ e ∈ s.live, base + header ≤ e.p - header ∧
          s.heap.mem.size (e.p - header) = e.units ∧ e.nbytes ≤ (e.units - 1) * header ∧
          finish header e.block ≤ s.heap.brk ∧ ∀ c ∈ blocks, Apart header e.block c) ∧
        s.live.Pairwise (fun e other => Apart header e.block other.block) ∧
        total blocks + total (s.live.map Live.block) = s.heap.units) ∧
      (∀ nbytes answers, nbytes < 2 ^ 31 - 65536 →
        Legal s.heap.brk (unitsFor nbytes) answers →
        (step base s (.malloc nbytes answers)).isSome) ∧
      ∀ e ∈ s.live, (step base s (.free e.p)).isSome := by
  have inv : Inv base s := Transition.exec_preserves (Inv base) (step_inv image)
    (.inl ⟨rfl, rfl, rfl, below, limit⟩) run
  refine ⟨?_, ?_, ?_⟩
  · rcases inv with unused | ⟨⟨blocks, layout⟩, usable⟩
    · exact .inl ⟨unused.freep, unused.live, unused.units⟩
    · refine .inr ⟨blocks, layout.path, layout.spaced, layout.roving, ?_, ?_, layout.total⟩
      · intro e member
        have isLive : e.block ∈ s.live.map Live.block := List.mem_map_of_mem member
        exact ⟨(layout.above _ isLive).1, layout.sizes _ isLive, (usable e member).2,
          layout.bound _ (List.mem_append_right blocks isLive), layout.apart _ isLive⟩
      · exact List.pairwise_map.mp layout.distinct
  · intro nbytes answers small legal
    rcases malloc_cases image inv small with ⟨-, illegal⟩ | ⟨next, returns, -⟩
    · exact absurd legal illegal
    · rw [returns]
      rfl
  · intro e member
    obtain ⟨next, returns, -⟩ := free_cases inv member
    rw [returns]
    rfl

/-- Two blocks are cut from the tail of the first 64 KiB, and the first is given back. -/
def twoBlocksRun : List Label :=
  [.malloc 100 [some 8192], .malloc 20 [], .free 73616, .malloc 70000 [none]]

theorem heap_sound_two_blocks :
    ∃ s blocks, Transition.exec (step 4096) (fresh ⟨fun _ => 0, fun _ => 0⟩ 8192) twoBlocksRun =
        some s ∧
      s.live = [⟨73568, 20, 3⟩] ∧ Path s.heap.mem 4096 blocks 4096 ∧
      Spaced header (4096 + header) blocks ∧ total blocks + 3 = 4096 := by
  have ends : ∃ s, Transition.exec (step 4096) (fresh ⟨fun _ => 0, fun _ => 0⟩ 8192)
        twoBlocksRun = some s ∧
      (s.live = [⟨73568, 20, 3⟩] ∧ s.heap.units = 4096) :=
    Transition.exec_reaches (by decide +kernel)
  obtain ⟨s, run, live, units⟩ := ends
  obtain ⟨unused | ⟨blocks, path, spaced, -, -, -, sum⟩, -⟩ :=
    heap_sound _ 8192 (by decide : 0 < 4096) (by decide) (by decide) twoBlocksRun s run
  · rw [unused.2.1] at live
    cases live
  · refine ⟨s, blocks, run, live, path, spaced, ?_⟩
    rw [live, units] at sum
    exact sum

end Program

end Xv6.Malloc
