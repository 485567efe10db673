import LocalSpace.Library.Replacing
import LocalSpace.Prompts
import LocalSpace.Replies

/-!
# A tool's name, as the engine is given it

`model.rs` and `agent.rs`: a dot of a tool's name is written as two underscores for the engine, and
two underscores of a name that comes back are read as a dot, on four paths: a whole reply's calls, a
stream's, a bare call and a block taken out of an answer. A name comes back as it was exactly where
no underscore of it stands before another or before a dot; neither `ToolSet::lint` nor
`Registry::stage` asks for that.
-/

namespace LocalSpace

open Library
open JsonReader (Gathered)

variable {H : Host} {P : JsonReader}

namespace ToolName

/-- What a name is given to the engine as. -/
def given (name : String) : String :=
  name.replace "." "__"

/-- What a name of the engine's is read as. -/
def readBack (name : String) : String :=
  name.replace "__" "."

/-- No underscore stands before another or before a dot. -/
def Clean (name : String) : Prop :=
  name.toList.IsChain fun a b => a = '_' → b ≠ '_' ∧ b ≠ '.'

/-! ### There and back -/

theorem toList_given (name : String) :
    (given name).toList = replaceAll ['.'] ['_', '_'] name.toList :=
  toList_replace name (by decide)

theorem toList_readBack (name : String) :
    (readBack name).toList = replaceAll ['_', '_'] ['.'] name.toList :=
  toList_replace name (by decide)

/-- How letters begin once their dots are written out. -/
theorem given_begins (l : List Char) : (∃ rest, replaceAll ['.'] ['_', '_'] l = '_' :: rest) ↔
    ∃ c rest, l = c :: rest ∧ (c = '_' ∨ c = '.') := by
  rcases l with _ | ⟨c, l⟩
  · simp
  · rw [replaceAll_singleton, List.flatMap_cons]
    by_cases hdot : c = '.'
    · simp [hdot]
    · simp [hdot]

/-- Letters come back as they were exactly where no underscore stands before another or a dot. -/
theorem letters_back_iff (l : List Char) :
    replaceAll ['_', '_'] ['.'] (replaceAll ['.'] ['_', '_'] l) = l ↔
      l.IsChain fun a b => a = '_' → b ≠ '_' ∧ b ≠ '.' := by
  induction l with
  | nil => simp
  | cons c l ih =>
    rw [List.isChain_cons, ← ih]
    by_cases hdot : c = '.'
    · have hgiven : replaceAll ['.'] ['_', '_'] (['.'] ++ l) =
          ['_', '_'] ++ replaceAll ['.'] ['_', '_'] l :=
        replaceAll_pattern_append (List.cons_ne_nil _ _)
      have hback : replaceAll ['_', '_'] ['.']
          (['_', '_'] ++ replaceAll ['.'] ['_', '_'] l) =
          ['.'] ++ replaceAll ['_', '_'] ['.'] (replaceAll ['.'] ['_', '_'] l) :=
        replaceAll_pattern_append (List.cons_ne_nil _ _)
      rw [List.singleton_append] at hgiven
      rw [hdot, hgiven, hback]
      simp
    · rw [replaceAll_cons_of_ne hdot]
      by_cases hbar : c = '_'
      · subst hbar
        by_cases hnext : ∃ rest, replaceAll ['.'] ['_', '_'] l = '_' :: rest
        · -- two underscores come back as a dot
          obtain ⟨d, after, rfl, hd⟩ := (given_begins l).mp hnext
          obtain ⟨rest, hrest⟩ := hnext
          have hback : replaceAll ['_', '_'] ['.'] (['_', '_'] ++ rest) =
              ['.'] ++ replaceAll ['_', '_'] ['.'] rest :=
            replaceAll_pattern_append (List.cons_ne_nil _ _)
          rw [hrest]
          refine iff_of_false (fun heq => ?_) fun hclean => ?_
          · rw [List.cons_append, List.singleton_append] at hback
            rw [hback] at heq
            simp at heq
          · have hfirst := hclean.1 d (by simp) rfl
            rcases hd with rfl | rfl
            · exact hfirst.1 rfl
            · exact hfirst.2 rfl
        · have hnot : ¬['_', '_'] <+: '_' :: replaceAll ['.'] ['_', '_'] l := by
            rintro ⟨rest, hrest⟩
            exact hnext ⟨rest, (List.cons.inj hrest).2.symm⟩
          have hclean : ∀ d ∈ l.head?, d ≠ '_' ∧ d ≠ '.' := by
            intro d hd
            obtain ⟨rest, rfl⟩ := List.head?_eq_some_iff.mp hd
            refine ⟨fun heq => hnext ?_, fun heq => hnext ?_⟩
            · exact (given_begins _).mpr ⟨d, rest, rfl, Or.inl heq⟩
            · exact (given_begins _).mpr ⟨d, rest, rfl, Or.inr heq⟩
          rw [replaceAll_cons hnot, List.cons.injEq, and_congr_left_iff]
          exact fun _ => iff_of_true rfl fun d hd _ => hclean d hd
      · rw [replaceAll_cons_of_ne hbar]
        simp [hbar]

theorem readBack_given_iff (name : String) : readBack (given name) = name ↔ Clean name := by
  rw [← String.toList_inj, toList_readBack, toList_given, letters_back_iff, Clean]

/-! ### The four paths -/

/-- A block's call, as the agent takes it. -/
def blockCall (block : CallBlock) : ProposedCall :=
  ⟨"call_0", block.tool.replace "__" ".", block.params⟩

/-- A name of the engine's is read as a tool's, on one of the paths a call comes by. -/
inductive Reads (P : JsonReader) (name : String) : String → Prop
  | whole {message tc : Json} {i : ℕ} {call : ProposedCall}
      (hcall : (((message.atKey "tool_calls").asArray).getD [])[i]? = some tc)
      (hname : ((tc.atKey "function").atKey "name").asStr = some name)
      (hread : (P.engineCalls message)[i]? = some call) : Reads P name call.tool
  | streamed {g : Gathered} {id args : String} {before after : List (String × String × String)}
      {call : ProposedCall} (hcalls : g.calls = before ++ (id, name, args) :: after)
      (hname : name ≠ "")
      (hread : (g.engine P)[(before.filter fun c => c.2.1 ≠ "").length]? = some call) :
      Reads P name call.tool
  | bare {text : List Char} {tools : List String} {value params : Json} {call : ProposedCall}
      (hvalue : P.fromStr (trimChars text) = some value)
      (hname : P.named value = some (name, params))
      (hread : P.parseBareCall text tools = some call) : Reads P name call.tool
  | block {block : CallBlock} (hname : block.tool = name) : Reads P name (blockCall block).tool

/-- A whole reply's calls, each name read back. -/
theorem engineCalls_tools (message : Json) : (P.engineCalls message).map ProposedCall.tool =
    (((message.atKey "tool_calls").asArray).getD []).map fun tc =>
      readBack ((((tc.atKey "function").atKey "name").asStr).getD "") := by
  rw [JsonReader.engineCalls, List.map_map]
  generalize ((message.atKey "tool_calls").asArray).getD [] = tcs
  conv_rhs => rw [← List.zipIdx_map_fst 0 tcs, List.map_map]
  rfl

/-- A stream's named calls, each name read back. -/
theorem engine_tools (g : Gathered) : (g.engine P).map ProposedCall.tool =
    (g.calls.filter fun c => c.2.1 ≠ "").map fun c => readBack c.2.1 := by
  rw [JsonReader.Gathered.engine, List.map_map]
  conv_rhs => rw [← List.zipIdx_map_fst 0 g.calls, List.filter_map, List.map_map]
  rfl

/-- On each path a name is read back. -/
theorem Reads.eq {name tool : String} (h : Reads P name tool) : tool = readBack name := by
  rcases h with ⟨hcall, hname, hread⟩ | ⟨hcalls, hname, hread⟩ | ⟨hvalue, hname, hread⟩ | hname
  · have htool := congrArg (Option.map ProposedCall.tool) hread
    rw [← List.getElem?_map, engineCalls_tools, List.getElem?_map, hcall, Option.map_some,
      Option.map_some, hname, Option.getD_some] at htool
    exact (Option.some.inj htool).symm
  · have htool := congrArg (Option.map ProposedCall.tool) hread
    rw [← List.getElem?_map, engine_tools, hcalls, List.filter_append, List.map_append,
      List.getElem?_append_right (by rw [List.length_map]), List.length_map, Nat.sub_self,
      List.filter_cons_of_pos (by exact decide_eq_true hname)] at htool
    exact (Option.some.inj htool).symm
  · simp only [JsonReader.parseBareCall, hvalue, hname, Option.bind_eq_bind, Option.bind_some]
      at hread
    split_ifs at hread
    rw [← Option.some.inj hread]
    rfl
  · rw [← hname]
    rfl

/-- The name a declaration carries. -/
@[grind =]
def declared (t : ExposedTool) : Option String :=
  (((Prompts.Asked.toolSchema t).atKey "function").atKey "name").asStr

theorem declared_eq (t : ExposedTool) : declared t = some (given t.name) :=
  rfl

/-- **A tool's name survives the engine** exactly where the tools' names differ and no underscore of
them stands before another or before a dot. -/
theorem names_survive_iff (P : JsonReader) (tools : List ExposedTool) :
    ((tools.map declared).Nodup ∧ ∀ t ∈ tools, ∀ name, declared t = some name →
        ∀ tool, Reads P name tool → tool = t.name) ↔
      (tools.map ExposedTool.name).Nodup ∧ ∀ t ∈ tools, Clean t.name := by
  have hreads : ∀ t : ExposedTool, (∀ name, declared t = some name → ∀ tool, Reads P name tool →
      tool = t.name) ↔ Clean t.name := by
    intro t
    rw [← readBack_given_iff]
    constructor
    · intro h
      have hblock : Reads P (given t.name) (blockCall ⟨given t.name, .null, true, ""⟩).tool :=
        Reads.block rfl
      exact h _ (declared_eq t) _ hblock
    · intro h name hname tool hread
      rw [declared_eq, Option.some.injEq] at hname
      rw [hread.eq, ← hname, h]
  have hmap : tools.map declared = (tools.map ExposedTool.name).map fun n => some (given n) := by
    rw [List.map_map]
    exact List.map_congr_left fun t _ => declared_eq t
  simp only [hreads]
  refine and_congr_left fun hclean => ?_
  rw [hmap]
  constructor
  · exact List.Nodup.of_map _
  · refine fun hnodup => hnodup.map_on fun name hname name' hname' heq => ?_
    obtain ⟨t, ht, rfl⟩ := List.mem_map.mp hname
    obtain ⟨t', ht', rfl⟩ := List.mem_map.mp hname'
    -- what comes back as it was is told apart
    rw [← (readBack_given_iff t.name).mpr (hclean t ht),
      ← (readBack_given_iff t'.name).mpr (hclean t' ht'), Option.some.inj heq]

/-! ### Two tools of one package -/

/-- What lint and staging ask of a package's names: they differ, none is blank, each has a dot. -/
def Admitted (names : List String) : Prop :=
  names.Nodup ∧ ∀ name ∈ names, (trim name).isEmpty = false ∧ '.' ∈ name.toList

/-- A tool of a package's, as it is shown. -/
def exposed (name : String) : ExposedTool :=
  expose "a" .focused ⟨name, "Does a thing.", .obj [], .read, false, false, .never⟩

theorem given_twice : given "a.b.c" = given "a__b.c" := by
  rw [← String.toList_inj, toList_given, toList_given]
  decide

/-- Two tools that are admitted together are declared by one name, and it is read as the first. -/
theorem two_names_one : Admitted (["a.b.c", "a__b.c"].map fun n => (exposed n).name) ∧
    ¬((["a.b.c", "a__b.c"].map exposed).map declared).Nodup ∧
    ∀ P : JsonReader, ∃ name tool, declared (exposed "a__b.c") = some name ∧ Reads P name tool ∧
      tool ≠ (exposed "a__b.c").name := by
  have hblock (P : JsonReader) :
      Reads P (given "a__b.c") (blockCall ⟨given "a__b.c", .null, true, ""⟩).tool :=
    Reads.block rfl
  refine ⟨by rw [Admitted]; decide, fun hnodup => ?_, fun P => ⟨given "a__b.c", _, rfl, hblock P,
    fun heq => ?_⟩⟩
  · have hne : declared (exposed "a.b.c") ≠ declared (exposed "a__b.c") := by
      simpa using hnodup
    exact hne (congrArg some given_twice)
  · have hlist : (readBack (given "a__b.c")).toList = "a__b.c".toList := congrArg String.toList heq
    rw [toList_readBack, toList_given] at hlist
    revert hlist
    decide

end ToolName

end LocalSpace
