/-! Releasing cells in the generated program: trees, counted cells and unique cells. -/
namespace StagedLisp.Support

def free : List String := [
  "",
  "/* Shape-dispatched release */",
  "static void free_tree(Obj* x) \x7b",
  "    if (!x || is_stack_obj(x)) return;",
  "    if (x->is_pair) \x7b",
  "        free_tree(x->a);",
  "        free_tree(x->b);",
  "    \x7d",
  "    free(x);",
  "\x7d",
  "",
  "static void inc_ref(Obj* x) \x7b",
  "    if (x && !is_stack_obj(x)) x->rc++;",
  "\x7d",
  "",
  "static void dec_ref(Obj* x) \x7b",
  "    if (!x || is_stack_obj(x)) return;",
  "    if (--x->rc > 0) return;",
  "    if (x->is_pair) \x7b",
  "        dec_ref(x->a);",
  "        dec_ref(x->b);",
  "    \x7d",
  "    free(x);",
  "\x7d",
  "",
  "static void free_unique(Obj* x) \x7b",
  "    if (!x || is_stack_obj(x)) return;",
  "    if (x->is_pair) \x7b",
  "        dec_ref(x->a);",
  "        dec_ref(x->b);",
  "    \x7d",
  "    free(x);",
  "\x7d",
  "",
  "static void flush_freelist(void) \x7b",
  "    while (FREE_LIST) \x7b",
  "        FreeNode* n = FREE_LIST;",
  "        FREE_LIST = n->next;",
  "        dec_ref(n->obj);",
  "        free(n);",
  "    \x7d",
  "\x7d"]

end StagedLisp.Support
