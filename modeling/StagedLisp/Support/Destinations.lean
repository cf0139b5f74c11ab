/-! Writing results into destinations in the generated program. -/
namespace StagedLisp.Support

def destinations : List String := [
  "",
  "/* Destination passing */",
  "typedef struct Dest \x7b",
  "    Obj** ptr;",
  "    int on_stack;",
  "\x7d Dest;",
  "",
  "static Obj* write_int(Dest d, long i) \x7b",
  "    Obj* x = d.on_stack ? mk_int_stack(i) : mk_int(i);",
  "    if (d.ptr) *d.ptr = x;",
  "    return x;",
  "\x7d",
  "",
  "static Obj* write_pair(Dest d, Obj* a, Obj* b) \x7b",
  "    Obj* x = mk_pair(a, b);",
  "    if (d.ptr) *d.ptr = x;",
  "    return x;",
  "\x7d",
  "",
  "static int map_dps(Obj* list, long (*f)(long), Dest* dests, int n) \x7b",
  "    int i = 0;",
  "    while (list && list->is_pair && i < n) \x7b",
  "        write_int(dests[i], f(list->a ? list->a->i : 0));",
  "        list = list->b;",
  "        i++;",
  "    \x7d",
  "    return i;",
  "\x7d",
  "",
  "static Obj* fold_dps(Obj* list, long init, long (*f)(long, long), Dest d) \x7b",
  "    long acc = init;",
  "    while (list && list->is_pair) \x7b",
  "        acc = f(acc, list->a ? list->a->i : 0);",
  "        list = list->b;",
  "    \x7d",
  "    return write_int(d, acc);",
  "\x7d"]

end StagedLisp.Support
