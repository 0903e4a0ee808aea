import TypeFlow.Proofs.Requests

/-!
# Evaluating requests

The characters of a text are found one after the other from its start, which takes long on texts
that are written out. A text of single bytes has a character for each byte. Read that way, requests
come to the same workspaces, and can be evaluated.
-/

set_option autoImplicit false

namespace TypeFlow

namespace Json

def chars (text : String) : List Char :=
  let bytes := text.toByteArray.data.toList
  if bytes.all (· < 128) then bytes.map fun b => Char.ofNat b.toNat else text.toList

theorem utf8EncodeChar_ofNat {b : UInt8} (h : b < 128) :
    String.utf8EncodeChar (Char.ofNat b.toNat) = [b] := by
  have hb : b.toNat < 128 := h
  have hvalid : b.toNat.isValidChar := .inl (by omega)
  have hval : (Char.ofNat b.toNat).val.toNat = b.toNat := by
    unfold Char.ofNat
    rw [dif_pos hvalid]
    rfl
  unfold String.utf8EncodeChar
  rw [hval, if_pos (Nat.le_of_lt_succ hb), UInt8.ofNat_toNat]

theorem flatMap_utf8EncodeChar {bytes : List UInt8} (h : ∀ b ∈ bytes, b < 128) :
    (bytes.map fun b => Char.ofNat b.toNat).flatMap String.utf8EncodeChar = bytes := by
  induction bytes with
  | nil => rfl
  | cons b bytes ih =>
    rw [List.map_cons, List.flatMap_cons, utf8EncodeChar_ofNat (h b List.mem_cons_self),
      ih fun c hc => h c (List.mem_cons_of_mem b hc)]
    rfl

theorem chars_eq (text : String) : chars text = text.toList := by
  unfold chars
  dsimp only
  split
  · next hbytes =>
    have hsmall : ∀ b ∈ text.toByteArray.data.toList, b < 128 := fun b hb => by
      simpa using List.all_eq_true.1 hbytes b hb
    have htext : String.ofList (text.toByteArray.data.toList.map fun b => Char.ofNat b.toNat) =
        text := by
      rw [← String.toByteArray_inj, String.toByteArray_ofList, List.utf8Encode,
        flatMap_utf8EncodeChar hsmall]
      exact ByteArray.ext (by simp)
    rw [← String.toList_ofList (l := text.toByteArray.data.toList.map fun b => Char.ofNat b.toNat),
      htext]
  · rfl

def parseBytes? (text : String) : Option Json :=
  let cs := chars text
  match readValue (cs.length + 1) cs with
  | some (value, rest) => if (skipBlanks rest).isEmpty then some value else none
  | none => none

theorem parse?_eq (text : String) : parse? text = parseBytes? text := by
  unfold parse? parseBytes?
  rewrite [chars_eq]
  rfl

end Json

namespace Node

def parseBytes? (source : String) : Option Node :=
  (Json.parseBytes? source).bind fun j => if admissible j then decode j else none

theorem parse?_eq : parse? = parseBytes? := by
  funext source
  unfold parse? parseBytes?
  rw [Json.parse?_eq]

end Node

def Request.handleBy (parse : String → Option Node) : Request → WorkspaceM Unit
  | update path version source => do
    let version := version.getD ((← get).nextVersion path)
    match parse source with
    | some tree => Workspace.updateTree path version tree
    | none => throw (.parse path)
  | remove path => Workspace.remove path

theorem Request.handle_eq (r : Request) : r.handle = r.handleBy Node.parseBytes? := by
  rw [← Node.parse?_eq]
  cases r <;> rfl

namespace Workspace

def afterBy (parse : String → Option Node) (w : Workspace) (r : Request) : Workspace :=
  match r.handleBy parse w with
  | .ok _ w' => w'
  | .error _ w' => w'

theorem after_eq (w : Workspace) (r : Request) : w.after r = w.afterBy Node.parseBytes? r := by
  unfold after afterBy
  rewrite [r.handle_eq]
  rfl

theorem ofConfig_eq (config : Config) : ofConfig config = ⟨Engine.start config, {}⟩ := by
  rw [ofConfig, Engine.boot_start]

def serveBytes (config : Config) (rs : List Request) : Workspace :=
  rs.foldl (afterBy Node.parseBytes?) ⟨Engine.start config, {}⟩

theorem serve_eq (config : Config) (rs : List Request) : serve config rs = serveBytes config rs :=
    by
  unfold serve serveBytes
  rw [show after = afterBy Node.parseBytes? from funext fun w => funext fun r => w.after_eq r,
    ofConfig_eq]

end Workspace

end TypeFlow
