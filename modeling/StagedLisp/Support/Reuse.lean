/-! Building a value in the cell of another in the generated program. -/
namespace StagedLisp.Support

def reuse : List String := [
  "",
  "/* Perceus reuse */",
  "static Obj* try_reuse(Obj* old, size_t size) \x7b",
  "    (void)size;",
  "    if (old && !is_stack_obj(old) && old->rc == 1) \x7b",
  "        if (old->is_pair) \x7b",
  "            dec_ref(old->a);",
  "            dec_ref(old->b);",
  "        \x7d",
  "        return old;",
  "    \x7d",
  "    dec_ref(old);",
  "    return NULL;",
  "\x7d",
  "",
  "static Obj* reuse_as_int(Obj* slot, long i) \x7b",
  "    return slot ? init_int(slot, i) : mk_int(i);",
  "\x7d",
  "",
  "static Obj* reuse_as_pair(Obj* slot, Obj* a, Obj* b) \x7b",
  "    return slot ? init_pair(slot, a, b) : mk_pair(a, b);",
  "\x7d"]

end StagedLisp.Support
