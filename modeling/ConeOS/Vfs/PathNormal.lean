import ConeOS.Vfs.Path

namespace ConeOS.Vfs

open List

/-- A name between two slashes that stands for itself. -/
structure IsComponent (c : Path) : Prop where
  ne_nil : c≠[]
  ne_dot : c≠[dot]
  ne_dotdot : c≠[dot,dot]
  no_slash : slash ∉ c

/-- The absolute path of a stack of components. -/
def printPath : List Path → Path
  | [] => [slash]
  | c :: cs => (c :: cs).flatMap (fun c => slash :: c)

/-- The paths that stand for a stack. -/
def Normalised (path : Path) : Prop := ∃ stack, (∀ c ∈ stack, IsComponent c) ∧ path=printPath stack

section Components

variable {c path : Path}

theorem components_ne_nil (path : Path) : components path≠[] := by
  cases path with
  | nil => simp [components]
  | cons c cs =>
    rw [components]
    split_ifs
    · simp
    · cases components cs <;> simp

theorem components_append_slash {rest : Path} (hc : slash ∉ c) :
    components (c ++ slash :: rest)=c :: components rest := by
  induction c with
  | nil => simp [components]
  | cons x c ih =>
    rw [mem_cons,not_or] at hc
    rw [cons_append,components,if_neg (Ne.symm hc.1),ih hc.2]

theorem components_of_no_slash (hc : slash ∉ c) : components c=[c] := by
  induction c with
  | nil => rfl
  | cons x c ih =>
    rw [mem_cons,not_or] at hc
    rw [components,if_neg (Ne.symm hc.1),ih hc.2]

theorem components_flatMap {cs : List Path} (h : ∀ d ∈ c :: cs, slash ∉ d) :
    components ((c :: cs).flatMap (fun c => slash :: c))=[] :: c :: cs := by
  induction cs generalizing c with
  | nil =>
    simp only [flatMap_cons,flatMap_nil,append_nil]
    rw [components,if_pos rfl,components_of_no_slash (h c mem_cons_self)]
  | cons d cs ih =>
    have hrest := ih (c := d) (fun e he => h e (mem_cons_of_mem c he))
    rw [flatMap_cons] at hrest ⊢
    rw [cons_append,components,if_pos rfl] at hrest ⊢
    rw [flatMap_cons,cons_append,
      components_append_slash (h c mem_cons_self),(List.cons.inj hrest).2]

end Components

section Printing

variable {stack : List Path}

theorem printPath_append (hs : stack≠[]) (c : Path) :
    printPath (stack ++ [c])=printPath stack ++ slash :: c := by
  cases stack with
  | nil => exact absurd rfl hs
  | cons d ds =>
    rw [cons_append,printPath,printPath,← cons_append,flatMap_append]
    simp

theorem printPath_singleton (c : Path) : printPath [c]=slash :: c := by
  simp [printPath]

theorem components_printPath (hs : ∀ c ∈ stack, IsComponent c)
    (hne : stack≠[]) : components (printPath stack)=[] :: stack := by
  cases stack with
  | nil => exact absurd rfl hne
  | cons c cs => exact components_flatMap fun d hd => (hs d hd).no_slash

theorem printPath_head (stack : List Path) : (printPath stack).head? = some slash := by
  cases stack with
  | nil => rfl
  | cons c cs => simp [printPath]

theorem printPath_ne_nil (stack : List Path) : printPath stack≠[] := by
  intro h
  have hhead := printPath_head stack
  rw [h] at hhead
  cases hhead

theorem printPath_getLast (stack : List Path) {c : Path} (hc : IsComponent c) :
    (printPath (stack ++ [c])).reverse.head? ≠ some slash := by
  have hlast : ∃ rest, printPath (stack ++ [c])=rest ++ c := by
    cases stack with
    | nil => exact ⟨[slash],by rw [nil_append,printPath_singleton]; rfl⟩
    | cons d ds => exact ⟨printPath (d :: ds) ++ [slash],by rw [printPath_append (by simp)]; simp⟩
  obtain ⟨rest,hrest⟩ := hlast
  obtain ⟨x,xs,hx⟩ := exists_cons_of_ne_nil (fun h => hc.ne_nil (reverse_eq_nil_iff.mp h))
  rw [hrest,reverse_append,hx,cons_append,List.head?_cons]
  intro h
  have hmem : x ∈ c.reverse := hx ▸ mem_cons_self
  rw [Option.some.inj h] at hmem
  exact hc.no_slash (mem_reverse.mp hmem)

theorem letter_component (x : UInt8) (h : x≠slash) (hd : x≠dot) : IsComponent [x] :=
  ⟨by simp,by simpa using hd,by simp,by simpa using Ne.symm h⟩

end Printing

section Loop

variable {stack : List Path} {trailing : Bool} {out part : Path} {capacity : Nat} {out' : Path}
  {parts : List Path}

/-- What the loop of `resolve_path` has in its buffer: the stack, and a slash if the last thing
it did was to pop down to a stack that is not empty. -/
structure Drawn (stack : List Path) (trailing : Bool) (out : Path) : Prop where
  components : ∀ c ∈ stack, IsComponent c
  nonempty : trailing=true → stack≠[]
  text : out.reverse=printPath stack ++ if trailing then [slash] else []

/-- The text of a stack up to its last slash. -/
def printedBelow (stack : List Path) : Path := if stack=[] then [] else printPath stack

theorem printPath_snoc (stack : List Path) (c : Path) :
    printPath (stack ++ [c])=printedBelow stack ++ slash :: c := by
  by_cases hs : stack=[]
  · subst hs
    exact printPath_singleton c
  · rw [printedBelow,if_neg hs,printPath_append hs]

theorem Drawn.root (h : Drawn [] trailing out) : trailing=false ∧ out=[slash] := by
  have ht : trailing=false := by
    cases trailing with
    | false => rfl
    | true => exact absurd rfl (h.nonempty rfl)
  have htext := h.text
  rw [ht] at htext
  refine ⟨ht,?_⟩
  rw [← reverse_reverse out,htext]
  rfl

/-- Before a component is copied the text ends in a slash. -/
theorem Drawn.ends_in_slash (h : Drawn stack trailing out) :
    (if out.length > 1 ∧ out.head? ≠ some slash then slash :: out else out).reverse =
      printedBelow stack ++ [slash] := by
  rcases eq_nil_or_concat stack with rfl | ⟨cs,c,rfl⟩
  · rw [h.root.2]
    rfl
  rw [concat_eq_append] at h ⊢
  have hbelow : printedBelow (cs ++ [c])=printPath (cs ++ [c]) := if_neg (by simp)
  have htext := h.text
  cases trailing with
  | true =>
    have hhead : out.head? = some slash := by
      rw [← reverse_reverse out,htext]
      simp
    rw [if_neg (by simp [hhead]),htext,hbelow]
    rfl
  | false =>
    have hc : IsComponent c := h.components c (by simp)
    simp only [Bool.false_eq_true,if_false,append_nil] at htext
    have hhead : out.head? ≠ some slash := by
      rw [← reverse_reverse out,htext]
      exact printPath_getLast _ hc
    have hlen : out.length > 1 := by
      have hpos := length_pos_iff.mpr hc.ne_nil
      rw [← length_reverse,htext,printPath_snoc,length_append,length_cons]
      omega
    rw [if_pos ⟨hlen,hhead⟩,reverse_cons,htext,hbelow]

theorem Drawn.push (h : Drawn stack trailing out) (hp : IsComponent part)
    (hout : pushComponent capacity out part=some out') :
    Drawn (stack ++ [part]) false out' := by
  have hcomponents : ∀ c ∈ stack ++ [part], IsComponent c := by
    intro c hc
    rcases mem_append.mp hc with hc | hc
    · exact h.components c hc
    · rw [mem_singleton.mp hc]
      exact hp
  rw [pushComponent,if_neg (by simp [hp.ne_nil,hp.ne_dot]),if_neg hp.ne_dotdot] at hout
  dsimp only at hout
  have hslash := h.ends_in_slash
  generalize (if out.length > 1 ∧ out.head? ≠ some slash then slash :: out else out)=buf
    at hout hslash
  split at hout
  · cases hout
  split at hout
  · cases hout
  rw [Option.some.injEq] at hout
  subst hout
  refine ⟨hcomponents,by simp,?_⟩
  rw [reverse_append,reverse_reverse,hslash,printPath_snoc]
  simp

end Loop

section FixedPoints

variable {stack : List Path} {out part : Path} {capacity : Nat}

theorem Drawn.push_succeeds {trailing : Bool} (h : Drawn stack trailing out)
    (hp : IsComponent part) (hfit : (printPath (stack ++ [part])).length<capacity) :
    ∃ out', pushComponent capacity out part=some out' := by
  have hslash := congrArg List.length h.ends_in_slash
  have hpos := length_pos_iff.mpr hp.ne_nil
  rw [printPath_snoc,length_append,length_cons] at hfit
  rw [length_reverse,length_append,length_singleton] at hslash
  rw [pushComponent,if_neg (by simp [hp.ne_nil,hp.ne_dot]),if_neg hp.ne_dotdot]
  dsimp only
  have hroom : ¬ ((out.length > 1 ∧ out.head? ≠ some slash) ∧ out.length ≥ capacity-1) := by
    rintro ⟨hneeds,hfull⟩
    rw [if_pos hneeds,length_cons] at hslash
    omega
  rw [if_neg hroom,if_neg (by omega)]
  exact ⟨_,rfl⟩

theorem length_printPath_le (stack cs : List Path) :
    (printPath stack).length≤(printPath (stack ++ cs)).length := by
  induction cs generalizing stack with
  | nil => rw [append_nil]
  | cons c cs ih =>
    have hstep : (printPath stack).length≤(printPath (stack ++ [c])).length := by
      by_cases hs : stack=[]
      · subst hs
        simp [printPath]
      · rw [printPath_append hs,length_append]
        omega
    have hrest := ih (stack ++ [c])
    rw [append_assoc,singleton_append] at hrest
    exact hstep.trans hrest

theorem Drawn.loop_succeeds {cs : List Path} (h : Drawn stack false out)
    (hcs : ∀ c ∈ cs, IsComponent c) (hfit : (printPath (stack ++ cs)).length<capacity) :
    ∃ out', pushComponents capacity cs out=some out' ∧ out'.reverse=printPath (stack ++ cs) := by
  induction cs generalizing stack out with
  | nil =>
    refine ⟨out,rfl,?_⟩
    simpa using h.text
  | cons c cs ih =>
    have hc := hcs c mem_cons_self
    have hassoc : stack ++ c :: cs=(stack ++ [c]) ++ cs := by simp
    rw [hassoc] at hfit ⊢
    obtain ⟨next,hnext⟩ := h.push_succeeds hc
      (lt_of_le_of_lt (length_printPath_le (stack ++ [c]) cs) hfit)
    rw [pushComponents,hnext]
    exact ih (h.push hc hnext) (fun d hd => hcs d (mem_cons_of_mem c hd)) hfit

/-- A path in normal form is left as it is. -/
theorem resolvePath_printPath (cwd : Option Path) (hs : ∀ c ∈ stack, IsComponent c)
    (hfit : (printPath stack).length<capacity) (hcap : 2≤capacity) :
    resolvePath cwd (printPath stack) capacity=some (printPath stack) := by
  have hroot : Drawn [] false [slash] := ⟨by simp,by simp,rfl⟩
  have hpush : ∃ out, pushComponents capacity (components (printPath stack)) [slash]=some out ∧
      out.reverse=printPath stack := by
    cases stack with
    | nil => exact ⟨[slash],by simp [printPath,components,pushComponents,pushComponent],rfl⟩
    | cons c cs =>
      rw [components_printPath hs (cons_ne_nil c cs),pushComponents]
      exact hroot.loop_succeeds hs hfit
  obtain ⟨out,hout,htext⟩ := hpush
  rw [resolvePath,if_neg (by omega)]
  simp only [printPath_head,if_true,hout]
  cases out with
  | nil => exact absurd htext.symm (printPath_ne_nil stack)
  | cons x xs => rw [← htext]

end FixedPoints

end ConeOS.Vfs
